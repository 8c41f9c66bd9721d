import Datboi.Lib.SqlBatch

/-!
# The schemas of the two databases

What creates a fresh file, and the ladder: its step at place `i` takes a file of version
`i + 1` to version `i + 2`. `floor` makes a file of version 1, as the tests make one.
-/

namespace Datboi.OpenFile

open SqlBatch

/-- What is done with a file of an older version. -/
inductive OnOlderVersion where
  | migrateOrRecreate
  | migrate
  deriving DecidableEq, Repr

structure Schema where
  label : String
  appId : Nat
  version : Nat
  ddl : List Statement
  ladder : List (List Statement)
  onOlder : OnOlderVersion
  floor : List Statement

/-! ## state.db -/

def stateDdl : List Statement :=
  [.createTable "tag" ["name", "hash", "created_at"],
   .createTable "user" ["user_id", "username", "argon2", "role", "created_at"],
   .createTable "invite" ["token_hash", "created_by", "expires_at", "used_by", "role"],
   .createTable "session" ["token_hash", "user_id", "expires_at"],
   .createTable "view_grant" ["user_id", "view_name"],
   .createTable "peer_acl" ["node_id", "label", "granted"],
   .createTable "view_def" ["name", "definition", "updated_at"],
   .createTable "channel" ["name", "kind", "promotion", "head_hash", "seq"],
   .createTable "subscription" ["peer_node", "channel", "policy", "pinned_head"],
   .createTable "config" ["key", "value"],
   .createTable "job" ["job_id", "kind", "name", "state", "started_at", "finished_at", "detail"],
   .createTable "snapshot_log" ["seq", "hash", "created_at"]]

def stateMigrations : List (List Statement) :=
  [[.addColumn "invite" "role" (.integer 1),
    .createTable "view_grant" ["user_id", "view_name"]],
   [.createTable "job" ["job_id", "kind", "name", "state", "started_at", "finished_at",
       "detail"]]]

/-- A file of version 1. -/
def stateFloor : List Statement :=
  [.createTable "tag" ["name", "hash", "created_at"],
   .createTable "user" ["user_id", "username", "argon2", "role", "created_at"],
   .createTable "invite" ["token_hash", "created_by", "expires_at", "used_by"],
   .createTable "session" ["token_hash", "user_id", "expires_at"],
   .createTable "peer_acl" ["node_id", "label", "granted"],
   .createTable "view_def" ["name", "definition", "updated_at"],
   .createTable "channel" ["name", "kind", "promotion", "head_hash", "seq"],
   .createTable "subscription" ["peer_node", "channel", "policy", "pinned_head"],
   .createTable "config" ["key", "value"],
   .createTable "snapshot_log" ["seq", "hash", "created_at"]]

def stateSchema : Schema where
  label := "state.db"
  appId := 0x64746273
  version := 3
  ddl := stateDdl
  ladder := stateMigrations
  onOlder := .migrate
  floor := stateFloor

/-! ## cache.db -/

def cacheDdl : List Statement :=
  [.createTable "blob" ["blob_id", "hash", "size", "namespace", "residency", "verified_at",
      "last_access", "pinned_reason"],
   .createIndex "blob_hash" "blob",
   .createIndex "blob_residency" "blob",
   .createTable "alias" ["algo", "digest", "blob_id"],
   .createIndex "alias_by_blob" "alias",
   .createTable "recipe" ["recipe_id", "blob_id", "op_kind", "op_name", "seek_class", "verify",
       "verified_at", "fail_error", "fail_peer", "source"],
   .createTable "recipe_input" ["recipe_id", "position", "blob_id", "role"],
   .createIndex "rin_by_blob" "recipe_input",
   .createTable "recipe_output" ["recipe_id", "ordinal", "blob_id", "size", "name"],
   .createIndex "rout_by_blob" "recipe_output",
   .createTable "source_file" ["path", "mtime_ns", "size", "blob_id", "scanned_at"],
   .createIndex "sf_by_blob" "source_file",
   .createTable "detector" ["detector_id", "name", "blob_id", "rules"],
   .createTable "dat_source" ["source_id", "provider", "system", "current_revision_id"],
   .createTable "dat_revision" ["revision_id", "source_id", "blob_id", "format", "version",
       "dat_date", "header", "detector_id", "imported_at", "materialized"],
   .createTable "content_identity" ["identity_id", "size", "crc32", "md5", "sha1", "sha256",
       "strength"],
   .createIndex "ci_sha1" "content_identity",
   .createIndex "ci_md5" "content_identity",
   .createIndex "ci_sha256" "content_identity",
   .createIndex "ci_crc" "content_identity",
   .createTable "identity_blob" ["identity_id", "blob_id", "basis"],
   .createIndex "ib_by_blob" "identity_blob",
   .createTable "entry" ["entry_id", "revision_id", "name", "stable_key", "description", "year",
       "manufacturer", "is_bios", "is_device", "is_mechanical", "runnable", "cloneof", "romof",
       "sampleof", "cloneof_id", "romof_id", "attrs"],
   .createIndex "entry_stable" "entry",
   .createIndex "entry_by_name" "entry",
   .createTable "release" ["entry_id", "name", "region", "language", "rel_date", "is_default"],
   .createTable "rom_claim" ["claim_id", "entry_id", "kind", "name", "size", "crc32", "md5",
       "sha1", "sha256", "status", "mia", "optional", "merge_name", "identity_id", "attrs"],
   .createIndex "claim_by_entry" "rom_claim",
   .createIndex "claim_by_identity" "rom_claim",
   .createTable "annotation" ["entry_id", "layer", "data"],
   .createTable "identity_status" ["identity_id", "state"],
   .createTable "entry_audit" ["entry_id", "required", "have_verified", "have_claimed",
       "peer_avail", "missing", "computed_at"],
   .createTable "seek_quarantine" ["component", "quarantined_at", "reason"],
   .createTable "analysis" ["blob_id", "analyzer", "outcome", "detail", "analyzed_at"],
   .createIndex "analysis_by_analyzer" "analysis",
   .createTable "sweep_queue" ["blob_id", "analyzer", "priority", "enqueued_at", "leased_until"],
   .createIndex "sweep_by_priority" "sweep_queue",
   .createTable "sweep_absent_eligible" ["blob_id"],
   .createTable "sweep_deferred" ["blob_id", "analyzer", "waiting_on"],
   .createIndex "sweep_deferred_by_waiting" "sweep_deferred",
   .createTable "gc_guard" ["guard_id", "holder", "expires_at"],
   .insertRow "gc_guard" [.integer 1, .null, .integer 0],
   .createTable "orphan_candidate" ["blob_id", "marked_at"],
   .createTable "peer" ["peer_id", "node_id", "name", "last_seen"],
   .createTable "peer_have" ["peer_id", "blob_id", "seen_at"],
   .createIndex "ph_by_blob" "peer_have"]

def cacheMigrations : List (List Statement) :=
  [[.createTable "seek_quarantine" ["component", "quarantined_at", "reason"],
    .createTable "analysis" ["blob_id", "analyzer", "outcome", "detail", "analyzed_at"],
    .createIndex "analysis_by_analyzer" "analysis",
    .createTable "sweep_queue" ["blob_id", "analyzer", "priority", "enqueued_at"],
    .createIndex "sweep_by_priority" "sweep_queue"],
   [.dropTable "sweep_queue",
    .createTable "sweep_queue" ["blob_id", "analyzer", "priority", "enqueued_at", "leased_until"],
    .createIndex "sweep_by_priority" "sweep_queue"],
   [.createTable "gc_guard" ["guard_id", "holder", "expires_at"],
    .insertRow "gc_guard" [.integer 1, .null, .integer 0],
    .createTable "orphan_candidate" ["blob_id", "marked_at"]],
   [.createIndex "sf_by_blob" "source_file",
    .dropIndex "sweep_by_priority",
    .createIndex "sweep_by_priority" "sweep_queue"],
   [.createTable "sweep_absent_eligible" ["blob_id"]],
   [.dropColumn "blob" "obao"],
   [.createTable "sweep_deferred" ["blob_id", "analyzer", "waiting_on"],
    .createIndex "sweep_deferred_by_waiting" "sweep_deferred"],
   [.createTable "entry_migrate" ["entry_id", "revision_id", "name", "stable_key", "description",
       "year", "manufacturer", "is_bios", "is_device", "is_mechanical", "runnable", "cloneof",
       "romof", "sampleof", "cloneof_id", "romof_id", "attrs"],
    .insertSelect "entry_migrate" ["entry_id", "revision_id", "name", "stable_key",
        "description", "year", "manufacturer", "is_bios", "is_device", "is_mechanical",
        "runnable", "cloneof", "romof", "sampleof", "cloneof_id", "romof_id", "attrs"] "entry",
    .dropTable "entry",
    .createTable "entry" ["entry_id", "revision_id", "name", "stable_key", "description", "year",
        "manufacturer", "is_bios", "is_device", "is_mechanical", "runnable", "cloneof", "romof",
        "sampleof", "cloneof_id", "romof_id", "attrs"],
    .insertSelect "entry" ["entry_id", "revision_id", "name", "stable_key", "description",
        "year", "manufacturer", "is_bios", "is_device", "is_mechanical", "runnable", "cloneof",
        "romof", "sampleof", "cloneof_id", "romof_id", "attrs"] "entry_migrate",
    .dropTable "entry_migrate",
    .createIndex "entry_stable" "entry",
    .createIndex "entry_by_name" "entry"]]

/-- A file of version 1: a fresh one without what the ladder creates. -/
def cacheFloor : List Statement :=
  cacheDdl ++
  [.dropTable "sweep_queue",
   .dropTable "analysis",
   .dropTable "seek_quarantine",
   .dropTable "gc_guard",
   .dropTable "orphan_candidate",
   .dropTable "sweep_absent_eligible",
   .dropTable "sweep_deferred",
   .dropIndex "sf_by_blob",
   .addColumn "blob" "obao" (.integer 0)]

def cacheSchema : Schema where
  label := "cache.db"
  appId := 0x64746263
  version := 9
  ddl := cacheDdl
  ladder := cacheMigrations
  onOlder := .migrateOrRecreate
  floor := cacheFloor

end Datboi.OpenFile
