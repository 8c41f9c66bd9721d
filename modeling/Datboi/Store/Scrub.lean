import Datboi.Core.Alias
import Datboi.Store.PackTiling

/-!
# Scrubbing a pack

One forward read of the whole file feeds a hasher for the file and one for each member. The
reads cut the file anywhere; each chunk is fanned out over the members that it overlaps, from the
first one that is not finished yet.
-/

namespace Datboi.StoreFs

open Reader (slice)
open Tiling (BackToBack)

variable (host : Host) (digests : Digests)

/-- A member's identity, its length, and its aliases unless its bytes have another identity. -/
structure PackMemberScrub where
  hash : Blake3
  len : Nat
  aliases : Option AliasTuple
  deriving DecidableEq, Repr

structure PackScrub where
  pack : Blake3
  intact : Bool
  members : List PackMemberScrub
  deriving DecidableEq, Repr

/-- Feed a chunk to the members that it overlaps, of those that are left. The count is of the
members that end with it. -/
def fanOut (chunk : Bytes) (chunkStart : Nat) :
    List (MemberEntry × AliasHasher) → Nat × List (MemberEntry × AliasHasher)
  | [] => (0, [])
  | (member, hasher) :: rest =>
    let chunkEnd := chunkStart + chunk.length
    let mstart := member.offset
    let mend := member.offset + member.len
    if chunkEnd ≤ mstart then (0, (member, hasher) :: rest)
    else
      let lo := max mstart chunkStart
      let hi := min mend chunkEnd
      let hasher :=
        if lo < hi then hasher.update (slice chunk (lo - chunkStart) (hi - lo)) else hasher
      if mend ≤ chunkEnd then
        let (finished, rest) := fanOut chunk chunkStart rest
        (finished + 1, (member, hasher) :: rest)
      else (0, (member, hasher) :: rest)

/-- The state between two reads. -/
structure ScrubState where
  whole : Bytes := []
  rows : List (MemberEntry × AliasHasher)
  pos : Nat := 0
  cur : Nat := 0

def ScrubState.feed (state : ScrubState) (chunk : Bytes) : ScrubState :=
  let (finished, rest) := fanOut chunk state.pos (state.rows.drop state.cur)
  { whole := state.whole ++ chunk
    rows := state.rows.take state.cur ++ rest
    pos := state.pos + chunk.length
    cur := state.cur + finished }

/-- Read up to the end, which an empty read marks. -/
def scrubReads (path : Path) :
    List (Except IoError Bytes) → ScrubState → Except StoreError ScrubState
  | [], state => .ok state
  | .error e :: _, _ => .error (.io path e)
  | .ok chunk :: reads, state =>
    if chunk = [] then .ok state else scrubReads path reads (state.feed chunk)

/-- Scrub one sealed pack, read as the reads say. -/
def scrubPack (pack : Blake3) (file : Bytes) (reads : List (Except IoError Bytes)) :
    Except StoreError PackScrub :=
  match parseFooter host file with
  | .error detail => .error (.packFooter (.pack pack) detail)
  | .ok members => do
      let state ← scrubReads (.pack pack) reads { rows := members.map fun member => (member, {}) }
      return {
        pack := pack
        intact := host.blake3 state.whole = pack
        members := state.rows.map fun row =>
          let aliases := row.2.finalize host digests
          ⟨row.1.hash, row.1.len, if aliases.blake3 = row.1.hash then some aliases else none⟩ }

/-! ## What the hashers are fed -/

/-- The members, each with a hasher that was fed its part of what was read. -/
def fedRows (members : List MemberEntry) (read : Bytes) : List (MemberEntry × AliasHasher) :=
  members.map fun member => (member, ⟨slice read member.offset member.len⟩)

/-- A chunk behind what was read adds the stretch of it that lies in the window. -/
theorem slice_append_chunk (read chunk : Bytes) (offset len : Nat) :
    slice (read ++ chunk) offset len = slice read offset len ++
      if max offset read.length < min (offset + len) (read.length + chunk.length) then
        slice chunk (max offset read.length - read.length)
          (min (offset + len) (read.length + chunk.length) - max offset read.length)
      else [] := by
  rw [Reader.slice_append]
  congr 1
  split
  · have hoffset : max offset read.length - read.length = offset - read.length := by omega
    rw [hoffset, slice, slice, List.take_eq_take_iff, List.length_drop]
    omega
  · rw [Reader.slice_eq_nil_iff]
    omega

variable {read chunk : Bytes} {members : List MemberEntry}

/-- A window that starts behind the chunk, or ends before it, gets nothing of it. -/
theorem slice_append_untouched {offset len : Nat}
    (houtside : read.length + chunk.length ≤ offset ∨ offset + len ≤ read.length) :
    slice (read ++ chunk) offset len = slice read offset len := by
  rw [slice_append_chunk, if_neg (by omega), List.append_nil]

theorem fedRows_untouched
    (houtside : ∀ member ∈ members, read.length + chunk.length ≤ member.offset ∨
      member.offset + member.len ≤ read.length) :
    fedRows members (read ++ chunk) = fedRows members read := by
  refine List.map_congr_left fun member hmem => ?_
  rw [slice_append_untouched (houtside member hmem)]

/-- Fanning a chunk out feeds every member its part of it. The induction is on the members that
are left; a member that reaches past the chunk keeps the later ones out of it. -/
theorem fanOut_fedRows {members : List MemberEntry} {start stop : Nat} {read chunk : Bytes}
    (hwindows : BackToBack start (members.map MemberEntry.window) stop) :
    (fanOut chunk read.length (fedRows members read)).2 = fedRows members (read ++ chunk) ∧
      (fanOut chunk read.length (fedRows members read)).1 ≤ members.length ∧
      ∀ member ∈ members.take (fanOut chunk read.length (fedRows members read)).1,
        member.offset + member.len ≤ read.length + chunk.length := by
  induction members generalizing start with
  | nil => exact ⟨rfl, Nat.le_refl _, fun _ hmem => (by cases hmem)⟩
  | cons member members ih =>
    obtain ⟨hstart, hrest⟩ := hwindows
    have hlater : ∀ other ∈ members, member.offset + member.len ≤ other.offset := by
      intro other hother
      have hbounds := (hrest.bounds (List.mem_map_of_mem hother)).1
      rw [← hstart] at hbounds
      exact hbounds
    obtain ⟨hrows, hcount, hfinished⟩ := ih hrest
    have hsame : fedRows (member :: members) read =
        (member, ⟨slice read member.offset member.len⟩) :: fedRows members read := rfl
    have hgrown : fedRows (member :: members) (read ++ chunk) =
        (member, ⟨slice (read ++ chunk) member.offset member.len⟩) ::
          fedRows members (read ++ chunk) := rfl
    have hfed : (if max member.offset read.length <
          min (member.offset + member.len) (read.length + chunk.length) then
        (⟨slice read member.offset member.len⟩ : AliasHasher).update
          (slice chunk (max member.offset read.length - read.length)
            (min (member.offset + member.len) (read.length + chunk.length) -
              max member.offset read.length))
        else ⟨slice read member.offset member.len⟩) =
        ⟨slice (read ++ chunk) member.offset member.len⟩ := by
      rw [slice_append_chunk]
      split
      · rfl
      · rw [List.append_nil]
    rw [hsame, fanOut]
    simp only
    split
    · -- The chunk ends before the member, and so before all later ones.
      rename_i hbehind
      rw [fedRows_untouched, hsame]
      · exact ⟨rfl, Nat.zero_le _, fun _ hmem => (by cases hmem)⟩
      · intro other hother
        rcases List.mem_cons.mp hother with rfl | hother
        · exact .inl hbehind
        · have hle := hlater other hother
          omega
    · rw [hfed]
      split
      · rename_i hends
        rw [hrows, hgrown]
        refine ⟨rfl, Nat.succ_le_succ hcount, ?_⟩
        intro other hother
        rw [List.take_succ_cons] at hother
        rcases List.mem_cons.mp hother with rfl | hother
        · exact hends
        · exact hfinished other hother
      · -- The member reaches past the chunk; the later ones start behind it.
        rename_i hreaches
        rw [hgrown, fedRows_untouched]
        · exact ⟨rfl, Nat.zero_le _, fun _ hmem => (by cases hmem)⟩
        · intro other hother
          have hle := hlater other hother
          omega

/-! ## The whole read -/

/-- What was read so far, with the members before the current one finished. -/
structure ScrubState.Fed (members : List MemberEntry) (read : Bytes) (state : ScrubState) :
    Prop where
  whole : state.whole = read
  rows : state.rows = fedRows members read
  pos : state.pos = read.length
  finished : ∀ member ∈ members.take state.cur, member.offset + member.len ≤ read.length
  cur : state.cur ≤ members.length

theorem ScrubState.Fed.feed {stop : Nat} {state : ScrubState} (hfed : state.Fed members read)
    (hwindows : BackToBack 0 (members.map MemberEntry.window) stop) :
    (state.feed chunk).Fed members (read ++ chunk) := by
  have hleft : ∃ start, BackToBack start ((members.drop state.cur).map MemberEntry.window) stop := by
    rw [List.map_drop]
    exact hwindows.drop state.cur
  obtain ⟨start, hleft⟩ := hleft
  obtain ⟨hrows, hcount, hends⟩ := @fanOut_fedRows _ _ _ read chunk hleft
  have hdrop : state.rows.drop state.cur = fedRows (members.drop state.cur) read := by
    rw [hfed.rows, fedRows, fedRows, List.map_drop]
  have htake : state.rows.take state.cur = fedRows (members.take state.cur) (read ++ chunk) := by
    rw [fedRows_untouched fun member hmem => .inr (hfed.finished member hmem), hfed.rows, fedRows,
      fedRows, List.map_take]
  unfold ScrubState.feed
  rw [hfed.pos, hdrop, htake]
  refine ⟨?_, ?_, ?_, ?_, ?_⟩
  · rw [hfed.whole]
  · simp only [hrows]
    rw [fedRows, fedRows, fedRows, ← List.map_append, List.take_append_drop]
  · rw [List.length_append]
  · intro member hmem
    rw [List.length_append]
    rw [List.take_add] at hmem
    rcases List.mem_append.mp hmem with hmem | hmem
    · have hle := hfed.finished member hmem
      omega
    · exact hends member hmem
  · have hcur := hfed.cur
    rw [List.length_drop] at hcount
    simp only
    omega

theorem scrubReads_chunks {members : List MemberEntry} {stop : Nat} {path : Path}
    {chunks : List Bytes} {read : Bytes} {state : ScrubState}
    (hwindows : BackToBack 0 (members.map MemberEntry.window) stop)
    (hchunks : [] ∉ chunks) (hfed : state.Fed members read) :
    ∃ state', scrubReads path (chunks.map .ok) state = .ok state' ∧
      state'.Fed members (read ++ chunks.flatten) := by
  induction chunks generalizing read state with
  | nil =>
    refine ⟨state, rfl, ?_⟩
    rw [List.flatten_nil, List.append_nil]
    exact hfed
  | cons chunk chunks ih =>
    rw [List.mem_cons, not_or] at hchunks
    obtain ⟨state', hrun, hfed'⟩ := ih hchunks.2 (hfed.feed hwindows)
    refine ⟨state', ?_, ?_⟩
    · rw [List.map_cons, scrubReads, if_neg (Ne.symm hchunks.1)]
      exact hrun
    · rw [List.flatten_cons, ← List.append_assoc]
      exact hfed'

/-- The row of a member whose hasher was fed these bytes. -/
def memberScrub (member : MemberEntry) (fed : Bytes) : PackMemberScrub :=
  ⟨member.hash, member.len,
    if host.blake3 fed = member.hash then some (AliasHasher.finalize host digests ⟨fed⟩) else none⟩

/-- Chunks that make up an accepted pack feed every hasher its member's slice. -/
theorem scrubReads_file {path : Path} {file : Bytes} {members : List MemberEntry}
    (hparse : parseFooter host file = .ok members) {chunks : List Bytes} (hchunks : [] ∉ chunks)
    (hfile : chunks.flatten = file) :
    ∃ state, scrubReads path (chunks.map .ok)
        { rows := members.map fun member => (member, {}) } = .ok state ∧
      state.Fed members file := by
  obtain ⟨dataEnd, hdata, -⟩ := BackToBack.append_iff.mp (packTiles_of_parseFooter hparse).windows
  have hstart : ({ rows := members.map fun member => (member, {}) } : ScrubState).Fed members [] := by
    refine ⟨rfl, ?_, rfl, fun _ hmem => (by cases hmem), Nat.zero_le _⟩
    exact List.map_congr_left fun member _ => by simp [slice]
  obtain ⟨state, hreads, hfed⟩ := @scrubReads_chunks _ _ path _ _ _ hdata hchunks hstart
  rw [List.nil_append, hfile] at hfed
  exact ⟨state, hreads, hfed⟩

theorem scrubPack_eq {pack : Blake3} {file : Bytes} (hparse : parseFooter host file = .ok members)
    {chunks : List Bytes} (hchunks : [] ∉ chunks) (hfile : chunks.flatten = file) :
    scrubPack host digests pack file (chunks.map .ok) = .ok {
      pack := pack
      intact := host.blake3 file = pack
      members := members.map fun member =>
        memberScrub host digests member (slice file member.offset member.len) } := by
  obtain ⟨state, hreads, hfed⟩ := @scrubReads_file host (.pack pack) _ _ hparse _ hchunks hfile
  rw [scrubPack, hparse]
  simp only [hreads, Decoding.ok_bind, hfed.whole, hfed.rows, fedRows, List.map_map]
  rfl

/-- However the reads cut an accepted pack, each member is judged by its own slice: it gets the
aliases of the slice, and none exactly when the slice has another identity. -/
theorem scrubPack_chunks (pack : Blake3) (file : Bytes) (members : List MemberEntry)
    (hparse : parseFooter host file = .ok members) (chunks : List Bytes)
    (hchunks : [] ∉ chunks) (hfile : chunks.flatten = file) :
    (∃ state, scrubReads (.pack pack) (chunks.map .ok)
        { rows := members.map fun member => (member, {}) } = .ok state ∧
      state.rows = members.map fun member =>
        (member, ⟨slice file member.offset member.len⟩)) ∧
    ∃ scrub, scrubPack host digests pack file (chunks.map .ok) = .ok scrub ∧
      scrub.pack = pack ∧ (scrub.intact = true ↔ host.blake3 file = pack) ∧
      List.Forall₂ (fun member row =>
          row.hash = member.hash ∧ row.len = member.len ∧
          (row.aliases = none ↔
            host.blake3 (slice file member.offset member.len) ≠ member.hash) ∧
          ∀ aliases, row.aliases = some aliases →
            aliases = AliasHasher.finalize host digests ⟨slice file member.offset member.len⟩)
        members scrub.members := by
  obtain ⟨state, hreads, hfed⟩ := @scrubReads_file host (.pack pack) _ _ hparse _ hchunks hfile
  refine ⟨⟨state, hreads, hfed.rows⟩, _, scrubPack_eq host digests hparse hchunks hfile, rfl,
    decide_eq_true_iff, ?_⟩
  rw [List.forall₂_map_right_iff, List.forall₂_same]
  intro member _
  refine ⟨rfl, rfl, ?_, ?_⟩
  · simp [memberScrub]
  · intro aliases haliases
    rw [memberScrub] at haliases
    simp only at haliases
    split at haliases
    · exact (Option.some.inj haliases).symm
    · cases haliases

/-- A pack of one blob, read byte by byte. -/
theorem scrubPack_chunks_seven :
    ∃ scrub, scrubPack sizedHost .blank sevenPack sevenFile
        ((sevenFile.map fun byte => [byte]).map .ok) = .ok scrub ∧ scrub.intact = true := by
  obtain ⟨-, scrub, hscrub, -, hintact, -⟩ := scrubPack_chunks sizedHost .blank sevenPack sevenFile
    _ parseFooter_sevenFile (sevenFile.map fun byte => [byte]) (by simp)
    (List.flatMap_singleton' sevenFile)
  exact ⟨scrub, hscrub, hintact.mpr rfl⟩

end Datboi.StoreFs
