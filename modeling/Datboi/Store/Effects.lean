import Datboi.Store.Files

/-!
# What the operations publish

Work on staged files is invisible to readers: an operation changes the published tree only by a
rename, a removal or an update of the pack map. Each operation is reduced to these effects,
whatever fails on the way.
-/

namespace Datboi.StoreFs

open Moves (Moves final moves_bind bind_apply)

/-! ## Work on staged files -/

/-- Same published files and the same pack map; only staged files may differ. -/
structure SameTree (before after : Files) : Prop where
  disk : ∀ path, ¬ path.IsTemp → after.disk path = before.disk path
  packs : after.packs = before.packs

namespace SameTree

variable {a b c : Files}

@[refl] theorem refl (a : Files) : SameTree a a := ⟨fun _ _ => rfl, rfl⟩

theorem trans (hab : SameTree a b) (hbc : SameTree b c) : SameTree a c where
  disk path hpath := (hbc.disk path hpath).trans (hab.disk path hpath)
  packs := hbc.packs.trans hab.packs

instance : Trans SameTree SameTree SameTree := ⟨trans⟩

theorem setTemp (a : Files) (n : Nat) (file : Option Bytes) :
    SameTree a (a.setFile (.temp n) file) where
  disk path hpath := by
    have hne : path ≠ .temp n := by
      rintro rfl
      exact hpath trivial
    simp [Files.setFile, hne]
  packs := rfl

end SameTree

/-- Same blobs and packs; staged files and sidecars may differ. -/
structure SameBlobs (before after : Files) : Prop where
  blob : ∀ ns hash, after.disk (.blob ns hash) = before.disk (.blob ns hash)
  pack : ∀ hash, after.disk (.pack hash) = before.disk (.pack hash)
  packs : after.packs = before.packs

theorem SameTree.sameBlobs {a b : Files} (hsame : SameTree a b) : SameBlobs a b where
  blob _ _ := hsame.disk _ id
  pack _ := hsame.disk _ id
  packs := hsame.packs

theorem SameBlobs.trans {a b c : Files} (hab : SameBlobs a b) (hbc : SameBlobs b c) :
    SameBlobs a c where
  blob ns hash := (hbc.blob ns hash).trans (hab.blob ns hash)
  pack hash := (hbc.pack hash).trans (hab.pack hash)
  packs := hbc.packs.trans hab.packs

theorem SameBlobs.setOutboard (a : Files) (ns : Namespace) (hash : Blake3) (file : Option Bytes) :
    SameBlobs a (a.setFile (.outboard ns hash) file) :=
  ⟨fun _ _ => rfl, fun _ => rfl, rfl⟩

@[simp] theorem Files.setFile_same (files : Files) (path : Path) (file : Option Bytes) :
    (files.setFile path file).disk path = file := by
  simp [Files.setFile]

@[simp] theorem Files.setFile_ne {files : Files} {path other : Path} (hne : other ≠ path)
    (file : Option Bytes) : (files.setFile path file).disk other = files.disk other := by
  simp [Files.setFile, hne]

/-- A published file set on both sides. -/
theorem SameTree.setFile {a b : Files} (hsame : SameTree a b) (path : Path) (file : Option Bytes) :
    SameTree (a.setFile path file) (b.setFile path file) where
  disk other hother := by
    by_cases heq : other = path
    · simp [heq]
    · rw [Files.setFile_ne heq, Files.setFile_ne heq, hsame.disk other hother]
  packs := hsame.packs

section Staging

variable {host : Host} {faults : Faults} {s : Files} {n : Nat} {α : Type}

theorem touch_moves (call : FsCall) (path : Path) : Moves Eq (touch faults call path) s := by
  unfold touch
  split <;> rfl

theorem touch_eq_ok {call : FsCall} {path : Path} {s' : Files} :
    touch faults call path s = .ok () s' ↔ faults call = none ∧ s = s' := by
  unfold touch
  cases faults call with
  | some e => exact ⟨nofun, nofun⟩
  | none =>
    constructor
    · rintro ⟨⟩
      exact ⟨rfl, rfl⟩
    · rintro ⟨_, rfl⟩
      rfl

theorem discard_sameTree (s : Files) : SameTree s (discard faults (.temp n) s) := by
  unfold discard
  split
  · exact .refl s
  · exact .setTemp s n none

theorem cleaning_sameTree {m : FsM α} (hm : Moves SameTree m s) :
    Moves SameTree (cleaning faults (.temp n) m) s := by
  unfold Moves cleaning at *
  cases hrun : m s with
  | ok a s' =>
    rw [hrun] at hm
    exact hm
  | error e s' =>
    rw [hrun] at hm
    cases e with
    | panic message => exact hm
    | _ => exact hm.trans (discard_sameTree s')

theorem discarding_sameTree {m : FsM α} (hm : Moves SameTree m s) :
    Moves SameTree (discarding faults (.temp n) m) s := by
  unfold Moves discarding at *
  cases hrun : m s with
  | ok a s' =>
    rw [hrun] at hm
    exact hm.trans (discard_sameTree s')
  | error e s' =>
    rw [hrun] at hm
    cases e with
    | panic message => exact hm
    | _ => exact hm.trans (discard_sameTree s')

theorem cleaning_eq_ok {path : Path} {m : FsM α} {a : α} {s' : Files} :
    cleaning faults path m s = .ok a s' ↔ m s = .ok a s' := by
  unfold cleaning
  split <;> simp_all

theorem createFile_sameTree : Moves SameTree (createFile faults (.temp n)) s := by
  unfold createFile Moves touch
  split
  · exact .refl s
  · exact .setTemp s n _

theorem createFile_eq_ok {path : Path} {s' : Files} :
    createFile faults path s = .ok () s' ↔
      faults (.create path) = none ∧ s' = s.setFile path (some []) := by
  unfold createFile touch
  cases faults (.create path) with
  | some e => exact ⟨nofun, nofun⟩
  | none =>
    constructor
    · rintro ⟨⟩
      exact ⟨rfl, rfl⟩
    · rintro ⟨_, rfl⟩
      rfl

theorem append_sameTree (wrap : IoError → StoreError) (bytes : Bytes) :
    Moves SameTree (append faults (.temp n) wrap bytes) s := by
  unfold append Moves
  dsimp only
  split
  · exact .setTemp s n _
  · exact .setTemp s n _

theorem stream_sameTree (reader : ByteStream) : Moves SameTree (stream faults (.temp n) reader) s := by
  refine moves_bind (append_sameTree _ _) fun _ s' _ => ?_
  split
  · exact .refl s'
  · exact .refl s'

theorem compute_sameTree (wrap : ObaoError → StoreError) (reader : ByteStream) (len : Nat) :
    Moves SameTree (compute host faults (.temp n) wrap reader len) s := by
  refine moves_bind (append_sameTree _ _) fun _ s' _ => ?_
  split
  · exact .refl s'
  · exact .refl s'

theorem append_eq_ok {path : Path} {wrap : IoError → StoreError} {bytes : Bytes} {s' : Files} :
    append faults path wrap bytes s = .ok () s' ↔
      firstFault (writeFault faults path) ((s.disk path).getD []).length bytes.length = none ∧
        s' = s.setFile path (some ((s.disk path).getD [] ++ bytes)) := by
  unfold append
  dsimp only
  split <;> rename_i hfault
  · simp only [hfault, true_and]
    constructor
    · rintro ⟨⟩
      rfl
    · rintro rfl
      rfl
  · simp [hfault]

theorem stream_eq_ok {path : Path} {reader : ByteStream} {s' : Files} :
    stream faults path reader s = .ok () s' ↔
      append faults path (.io path) reader.items s = .ok () s' ∧ reader.failure = none := by
  unfold stream
  rw [bind_apply]
  cases append faults path (.io path) reader.items s with
  | error e mid => simp
  | ok a mid =>
    cases reader.failure with
    | some e => simp only [reduceCtorEq, and_false, iff_false]; nofun
    | none => simp only [and_true]; exact Iff.rfl

theorem rename_eq_ok {source target : Path} {s' : Files} :
    rename faults source target s = .ok () s' ↔ faults (.rename target) = none ∧
      ∃ bytes, s.disk source = some bytes ∧
        s' = (s.setFile target (some bytes)).setFile source none := by
  unfold rename
  cases faults (.rename target) with
  | some e => exact ⟨nofun, nofun⟩
  | none =>
    cases s.disk source with
    | none => exact ⟨nofun, nofun⟩
    | some bytes =>
      constructor
      · rintro ⟨⟩
        exact ⟨rfl, bytes, rfl, rfl⟩
      · rintro ⟨_, _, ⟨⟩, rfl⟩
        rfl

theorem rename_error {source target : Path} {s' : Files} {e : StoreError}
    (hrun : rename faults source target s = .error e s') : s = s' := by
  unfold rename at hrun
  split at hrun <;> cases hrun
  · rfl
  · rfl

theorem touch_error {call : FsCall} {path : Path} {s' : Files} {e : StoreError}
    (hrun : touch faults call path s = .error e s') : s = s' := by
  have hmoves := @touch_moves faults s call path
  rwa [Moves, hrun] at hmoves

/-- A staged file moved to its final path. -/
theorem SameTree.moved (s : Files) (n : Nat) (target : Path) (bytes : Bytes) :
    SameTree (s.setFile target (some bytes))
      ((s.setFile target (some bytes)).setFile (.temp n) none) :=
  .setTemp _ n none

/-- Publishing either changes nothing that is published or puts the staged file in place. -/
theorem publish_cases {target : Path} {bytes : Bytes} (hstaged : s.disk (.temp n) = some bytes) :
    SameTree s (final (publish faults (.temp n) target s)) ∨
      SameTree (s.setFile target (some bytes)) (final (publish faults (.temp n) target s)) := by
  cases hrun : publish faults (.temp n) target s with
  | ok a s' =>
    obtain ⟨_, _, hsync, hrun⟩ := Moves.bind_eq_ok hrun
    obtain ⟨_, rfl⟩ := touch_eq_ok.mp hsync
    obtain ⟨_, _, hdir, hrun⟩ := Moves.bind_eq_ok hrun
    obtain ⟨_, rfl⟩ := touch_eq_ok.mp hdir
    obtain ⟨_, _, hrename, hrun⟩ := Moves.bind_eq_ok hrun
    obtain ⟨_, _, hmoved, rfl⟩ := rename_eq_ok.mp hrename
    obtain ⟨_, rfl⟩ := touch_eq_ok.mp hrun
    rw [hstaged] at hmoved
    cases hmoved
    exact Or.inr (.moved s n target bytes)
  | error e s' =>
    rcases Moves.bind_eq_error hrun with hrun | ⟨_, _, hsync, hrun⟩
    · exact Or.inl (touch_error hrun ▸ .refl s)
    obtain ⟨_, rfl⟩ := touch_eq_ok.mp hsync
    rcases Moves.bind_eq_error hrun with hrun | ⟨_, _, hdir, hrun⟩
    · exact Or.inl (touch_error hrun ▸ .refl s)
    obtain ⟨_, rfl⟩ := touch_eq_ok.mp hdir
    rcases Moves.bind_eq_error hrun with hrun | ⟨_, _, hrename, hrun⟩
    · exact Or.inl (rename_error hrun ▸ .refl s)
    obtain ⟨_, _, hmoved, rfl⟩ := rename_eq_ok.mp hrename
    rw [hstaged] at hmoved
    cases hmoved
    exact Or.inr (touch_error hrun ▸ .moved s n target bytes)

theorem final_of_error {m : FsM α} {R : Files → Files → Prop} {e : StoreError} {s' : Files}
    (hm : Moves R m s) (hrun : m s = .error e s') : R s s' := by
  rwa [Moves, hrun] at hm

theorem final_of_ok {m : FsM α} {R : Files → Files → Prop} {a : α} {s' : Files}
    (hm : Moves R m s) (hrun : m s = .ok a s') : R s s' := by
  rwa [Moves, hrun] at hm

/-- An operation that stages a file either ends with nothing published, or goes on with the
file filled. -/
theorem staged_final {β : Type} {P : Files → Prop} {fill : Path → FsM β} {f : Path → β → FsM α}
    (hfill : ∀ n s, Moves SameTree (fill (.temp n)) s) (herror : ∀ s', SameTree s s' → P s')
    (hok : ∀ n mid b s', mid.disk (.temp n) = some [] → SameTree s s' →
      fill (.temp n) mid = .ok b s' → P (final (f (.temp n) b s'))) :
    P (final ((do
      let temp ← newTempPath
      createFile faults temp
      let b ← cleaning faults temp (fill temp)
      f temp b) s)) := by
  have hnamed : SameTree s { s with nextTemp := s.nextTemp + 1 } := ⟨fun _ _ => rfl, rfl⟩
  refine Moves.final_bind nofun ?_
  rintro _ _ ⟨⟩
  refine Moves.final_bind ?_ ?_
  · intro e s' hrun
    exact herror s' (hnamed.trans (final_of_error createFile_sameTree hrun))
  · intro _ s' hrun
    obtain ⟨_, rfl⟩ := createFile_eq_ok.mp hrun
    have hcreated := hnamed.trans (.setTemp _ s.nextTemp (some []))
    refine Moves.final_bind ?_ ?_
    · intro e s' hrun
      exact herror s' (hcreated.trans (final_of_error (cleaning_sameTree (hfill _ _)) hrun))
    · intro b s' hrun
      have hfilled := hcreated.trans (final_of_ok (cleaning_sameTree (hfill _ _)) hrun)
      exact hok s.nextTemp _ b s' (Files.setFile_same _ _ _) hfilled (cleaning_eq_ok.mp hrun)

theorem stream_staged {reader : ByteStream} {s' : Files} (hempty : s.disk (.temp n) = some [])
    (hrun : stream faults (.temp n) reader s = .ok () s') :
    s'.disk (.temp n) = some reader.items := by
  obtain ⟨happend, _⟩ := stream_eq_ok.mp hrun
  obtain ⟨_, rfl⟩ := append_eq_ok.mp happend
  simp [hempty]

end Staging

/-! ## What the puts publish -/

section Puts

variable {host : Host} {faults : Faults} {s : Files} {ns : Namespace}

/-- Nothing, or one loose blob under its own address. -/
def PutEffect (host : Host) (s s' : Files) : Prop :=
  SameBlobs s s' ∨ ∃ ns bytes, SameBlobs (s.setFile (.blob ns (host.blake3 bytes)) (some bytes)) s'

theorem PutEffect.of_sameTree {s' : Files} (hsame : SameTree s s') : PutEffect host s s' :=
  Or.inl hsame.sameBlobs

theorem SameTree.putEffect {a b c : Files} (hab : SameTree a b) (hbc : PutEffect host b c) :
    PutEffect host a c := by
  rcases hbc with hbc | ⟨ns, bytes, hbc⟩
  · exact Or.inl (hab.sameBlobs.trans hbc)
  · exact Or.inr ⟨ns, bytes, (hab.setFile _ _).sameBlobs.trans hbc⟩

theorem publishNew_effect {n nth : Nat} {bytes : Bytes} (hstaged : s.disk (.temp n) = some bytes) :
    PutEffect host s
      (final (publishNew faults (.temp n) (.blob ns (host.blake3 bytes)) nth s)) := by
  refine Moves.final_bind nofun ?_
  rintro present _ ⟨⟩
  split
  · exact .of_sameTree (discard_sameTree s)
  rw [Moves.final_bind_pure]
  rcases @publish_cases faults s n (.blob ns (host.blake3 bytes)) bytes hstaged with hsame | hput
  · exact .of_sameTree hsame
  · exact Or.inr ⟨ns, bytes, hput.sameBlobs⟩

theorem putInner_effect (expected : Blake3) (reader : ByteStream) (wantAliases : Bool) :
    PutEffect host s (final (putInner host faults ns expected reader wantAliases s)) := by
  refine Moves.final_bind ?_ ?_
  · intro e s' hskip
    cases wantAliases <;> cases hskip
  intro present s' hskip
  have hsame : s = s' := by
    cases wantAliases <;> cases hskip <;> rfl
  subst hsame
  split
  · exact .of_sameTree (.refl s)
  refine staged_final (fun n s => stream_sameTree reader) (fun s' => .of_sameTree) ?_
  intro n mid _ s' hempty hsame hrun
  refine hsame.putEffect ?_
  split
  · exact .of_sameTree (discard_sameTree s')
  · rename_i hhash
    rw [not_not] at hhash
    subst hhash
    exact publishNew_effect (stream_staged hempty hrun)

theorem putNew_effect (reader : ByteStream) :
    PutEffect host s (final (putNew host faults ns reader s)) := by
  refine staged_final (fun n s => stream_sameTree reader) (fun s' => .of_sameTree) ?_
  intro n mid _ s' hempty hsame hrun
  refine hsame.putEffect ?_
  rw [Moves.final_bind_pure]
  exact publishNew_effect (stream_staged hempty hrun)

theorem PutEffect.trans_sameBlobs {a b c : Files} (hab : PutEffect host a b)
    (hbc : SameBlobs b c) : PutEffect host a c := by
  rcases hab with hab | ⟨ns, bytes, hab⟩
  · exact Or.inl (hab.trans hbc)
  · exact Or.inr ⟨ns, bytes, hab.trans hbc⟩

/-- A sidecar is no blob. -/
theorem putObao_sameBlobs (hash : Blake3) (sidecar : Bytes) :
    SameBlobs s (final (putObao faults ns hash sidecar s)) := by
  unfold putObao
  split
  · exact (SameTree.refl s).sameBlobs
  refine Moves.final_bind nofun ?_
  rintro present _ ⟨⟩
  split
  · exact (SameTree.refl s).sameBlobs
  refine staged_final (fun n s => append_sameTree _ sidecar) (fun s' => SameTree.sameBlobs) ?_
  intro n mid _ s' hempty hsame hrun
  obtain ⟨_, hs'⟩ := append_eq_ok.mp hrun
  have hstaged : s'.disk (.temp n) = some sidecar := by
    simp [hs', hempty]
  rw [Moves.final_bind_pure]
  refine hsame.sameBlobs.trans ?_
  rcases @publish_cases faults s' n (.outboard ns hash) sidecar hstaged with hsame | hput
  · exact hsame.sameBlobs
  · exact (SameBlobs.setOutboard s' ns hash _).trans hput.sameBlobs

theorem compute_eq_ok {path : Path} {wrap : ObaoError → StoreError} {reader : ByteStream}
    {len : Nat} {root : Blake3} {sidecar : Bytes} {s' : Files}
    (hrun : compute host faults path wrap reader len s = .ok (root, sidecar) s') :
    len ≤ reader.items.length ∧ root = host.blake3 (reader.items.take len) ∧
      sidecar = host.outboard (reader.items.take len) ∧
      append faults path (fun e => wrap (.io e)) (reader.items.take len) s = .ok () s' := by
  obtain ⟨_, mid, happend, hrun⟩ := Moves.bind_eq_ok hrun
  unfold Obao.compute at hrun
  by_cases hlen : len ≤ reader.items.length
  · rw [if_pos hlen] at hrun
    cases hrun
    exact ⟨hlen, rfl, rfl, happend⟩
  · rw [if_neg hlen] at hrun
    cases hrun

theorem trailing_sameTree {n len : Nat} (reader : ByteStream) :
    Moves SameTree (trailing (.temp n) reader len) s := by
  unfold trailing
  split
  · exact SameTree.refl s
  · split
    · exact SameTree.refl s
    · exact SameTree.refl s

theorem trailing_eq_ok {path : Path} {reader : ByteStream} {len : Nat} {more : Bool} {s' : Files}
    (hrun : trailing path reader len s = .ok more s') : s = s' := by
  unfold trailing at hrun
  by_cases hmore : len < reader.items.length
  · rw [if_pos hmore] at hrun
    cases hrun
    rfl
  · rw [if_neg hmore] at hrun
    cases hfailure : reader.failure with
    | some e =>
      rw [hfailure] at hrun
      cases hrun
    | none =>
      rw [hfailure] at hrun
      cases hrun
      rfl

theorem putWithObao_effect (expected : Blake3) (len : Nat) (reader : ByteStream) :
    PutEffect host s (final (putWithObao host faults ns expected len reader s)) := by
  refine staged_final (fun n s => compute_sameTree _ reader len) (fun s' => .of_sameTree) ?_
  rintro n mid ⟨root, sidecar⟩ s' hempty hsame hrun
  obtain ⟨_, rfl, rfl, happend⟩ := compute_eq_ok hrun
  obtain ⟨_, hs'⟩ := append_eq_ok.mp happend
  have hstaged : s'.disk (.temp n) = some (reader.items.take len) := by
    simp [hs', hempty]
  refine hsame.putEffect ?_
  refine Moves.final_bind ?_ ?_
  · intro e s'' hrun
    exact .of_sameTree (final_of_error (cleaning_sameTree (trailing_sameTree reader)) hrun)
  intro more s'' hrun
  obtain rfl := trailing_eq_ok (cleaning_eq_ok.mp hrun)
  split
  · exact .of_sameTree (discard_sameTree s')
  rename_i hhash
  rw [not_or, not_not] at hhash
  obtain ⟨rfl, _⟩ := hhash
  have heffect := @publishNew_effect host faults s' ns n 0 _ hstaged
  refine Moves.final_bind ?_ ?_
  · intro e s'' hrun
    rwa [hrun] at heffect
  · intro outcome s'' hrun
    rw [hrun] at heffect
    rw [Moves.final_bind_pure]
    exact heffect.trans_sameBlobs (putObao_sameBlobs _ _)

end Puts

/-! ## What a pack write publishes -/

section Packs

variable {host : Host} {faults : Faults} {s : Files} {n m : Nat}

theorem firstFault_eq_none {fault : Nat → Option IoError} {start len : Nat} :
    firstFault fault start len = none ↔
      ∀ offset, start ≤ offset → offset < start + len → fault offset = none := by
  simp [firstFault, List.findSome?_eq_none_iff, List.mem_range'_1]

/-- What was written to the end of a file does not exceed the largest file. -/
theorem append_length_le {path : Path} {wrap : IoError → StoreError} {bytes : Bytes} {s' : Files}
    (hbytes : bytes ≠ []) (hrun : append faults path wrap bytes s = .ok () s') :
    ((s.disk path).getD [] ++ bytes).length ≤ maxFileBytes := by
  obtain ⟨hfault, _⟩ := append_eq_ok.mp hrun
  have hpos := List.length_pos_iff.mpr hbytes
  rw [firstFault_eq_none] at hfault
  have hlast := hfault (((s.disk path).getD []).length + bytes.length - 1) (by omega) (by omega)
  rw [List.length_append]
  unfold writeFault at hlast
  split at hlast
  · cases hlast
  · omega

theorem writeMember_sameTree (opened : Except IoError ByteStream) (member : PackMember)
    (written : Written) :
    Moves SameTree (writeMember host faults (.temp n) (.temp m) opened member written) s := by
  unfold writeMember
  split
  · exact SameTree.refl s
  refine moves_bind (compute_sameTree _ _ _) fun found s' _ => ?_
  obtain ⟨root, sidecar⟩ := found
  dsimp only
  split
  · exact SameTree.refl s'
  split
  · exact SameTree.refl s'
  · exact moves_bind (append_sameTree _ _) fun _ s'' _ => SameTree.refl s''

theorem writeMembers_sameTree (openMember : Nat → Except IoError ByteStream) (ix : Nat)
    (members : List PackMember) (written : Written) :
    Moves SameTree
      (writeMembers host faults (.temp n) (.temp m) openMember ix members written) s := by
  induction members generalizing ix written s with
  | nil => exact SameTree.refl s
  | cons member members ih =>
    exact moves_bind (writeMember_sameTree _ _ _) fun written s' _ => ih (ix + 1) written

theorem writePackSpooled_sameTree (members : List PackMember)
    (openMember : Nat → Except IoError ByteStream) :
    Moves SameTree (writePackSpooled host faults (.temp n) (.temp m) members openMember) s := by
  unfold writePackSpooled
  refine moves_bind createFile_sameTree fun _ s₁ _ => ?_
  refine moves_bind createFile_sameTree fun _ s₂ _ => ?_
  refine moves_bind (writeMembers_sameTree _ _ _ _) fun written s₃ _ => ?_
  refine moves_bind ?_ fun _ s₄ _ => ?_
  · exact (touch_moves _ _).subst (SameTree.refl s₃)
  refine moves_bind (SameTree.refl s₄) fun trees s₅ _ => ?_
  refine moves_bind (stream_sameTree _) fun _ s₆ _ => ?_
  dsimp only
  split
  · exact SameTree.refl s₆
  refine moves_bind (append_sameTree _ _) fun _ s₇ _ => ?_
  refine moves_bind ?_ fun _ s₈ _ => SameTree.refl s₈
  exact (touch_moves _ _).subst (SameTree.refl s₇)

/-- The streams opened from `ix` on deliver the blobs, which are the declared members. -/
structure Streamed (host : Host) (openMember : Nat → Except IoError ByteStream) (ix : Nat)
    (members : List PackMember) (blobs : List Bytes) : Prop where
  declared : members = blobs.map fun blob => ⟨host.blake3 blob, blob.length⟩
  opened : ∀ k blob, blobs[k]? = some blob → openMember (ix + k) = .ok ⟨blob, none⟩

theorem Streamed.hashes {openMember : Nat → Except IoError ByteStream} {ix : Nat}
    {members : List PackMember} {blobs : List Bytes}
    (hstreamed : Streamed host openMember ix members blobs) :
    blobs.map host.blake3 = members.map PackMember.hash := by
  rw [hstreamed.declared, List.map_map]
  rfl

theorem Streamed.cons {openMember : Nat → Except IoError ByteStream} {ix : Nat}
    {member : PackMember} {members : List PackMember} {blob : Bytes} {blobs : List Bytes}
    (hopened : openMember ix = .ok ⟨blob, none⟩)
    (hmember : member = ⟨host.blake3 blob, blob.length⟩)
    (hrest : Streamed host openMember (ix + 1) members blobs) :
    Streamed host openMember ix (member :: members) (blob :: blobs) where
  declared := by
    rw [hmember, hrest.declared, List.map_cons]
  opened k found hfound := by
    cases k with
    | zero =>
      cases hfound
      exact hopened
    | succ k =>
      rw [← Nat.add_assoc, Nat.add_right_comm]
      exact hrest.opened k found hfound

section

variable {trees : Bytes} {written : Written} (hne : n ≠ m)
  (htemp : s.disk (.temp n) = some written.out) (hspool : s.disk (.temp m) = some trees)

include hne htemp hspool

/-- A member that was written is its declared bytes, with its tree spooled. -/
theorem writeMember_eq_ok {opened : Except IoError ByteStream} {member : PackMember}
    {written' : Written} {s' : Files}
    (hrun : writeMember host faults (.temp n) (.temp m) opened member written s =
      .ok written' s') :
    ∃ blob, opened = .ok ⟨blob, none⟩ ∧ member = ⟨host.blake3 blob, blob.length⟩ ∧
      written' = ⟨written.out ++ blob,
        written.rows ++ [(host.blake3 blob, written.out.length, blob.length)]⟩ ∧
      s'.disk (.temp n) = some (written.out ++ blob) ∧
      s'.disk (.temp m) = some (trees ++ host.outboard blob) := by
  unfold writeMember at hrun
  split at hrun
  · cases hrun
  rename_i reader
  obtain ⟨⟨root, sidecar⟩, s₁, hcompute, hrun⟩ := Moves.bind_eq_ok hrun
  obtain ⟨hlen, rfl, rfl, happend⟩ := compute_eq_ok hcompute
  obtain ⟨_, rfl⟩ := append_eq_ok.mp happend
  dsimp only at hrun
  have hfailure : reader.failure = none := by
    cases hfailure : reader.failure with
    | none => rfl
    | some e =>
      rw [hfailure] at hrun
      cases hrun
  rw [hfailure] at hrun
  by_cases hmismatch : host.blake3 (reader.items.take member.len) ≠ member.hash ∨
      0 < reader.items.length - member.len
  · simp only [if_pos hmismatch] at hrun
    cases hrun
  simp only [if_neg hmismatch] at hrun
  have hmatches := hmismatch
  rw [not_or, not_not] at hmatches
  obtain ⟨_, s₂, hspooled, hrun⟩ := Moves.bind_eq_ok hrun
  obtain ⟨_, rfl⟩ := append_eq_ok.mp hspooled
  cases hrun
  have hall : reader.items.take member.len = reader.items :=
    List.take_of_length_le (by omega)
  have hlength : member.len = reader.items.length := by omega
  have hpaths : (Path.temp n) ≠ .temp m := fun heq => hne (Path.temp.inj heq)
  rw [hall] at hmatches ⊢
  refine ⟨reader.items, ?_, ?_, ?_, ?_, ?_⟩
  · rw [← hfailure]
  · rw [hmatches.1, ← hlength]
  · rw [hlength, hmatches.1]
  · simp [hpaths, htemp]
  · simp [Ne.symm hpaths, hspool]

/-- Written members lie back to back behind what was there, their trees behind the trees. -/
theorem writeMembers_eq_ok {openMember : Nat → Except IoError ByteStream} {ix : Nat}
    {members : List PackMember} {written' : Written} {s' : Files}
    (hrun : writeMembers host faults (.temp n) (.temp m) openMember ix members written s =
      .ok written' s') :
    ∃ blobs, Streamed host openMember ix members blobs ∧
      written' = ⟨written.out ++ blobs.flatten,
        written.rows ++ layout host written.out.length blobs⟩ ∧
      s'.disk (.temp n) = some (written.out ++ blobs.flatten) ∧
      s'.disk (.temp m) = some (trees ++ blobs.flatMap host.outboard) := by
  induction members generalizing ix written trees s with
  | nil =>
    cases hrun
    have hnone : Streamed host openMember ix [] [] := ⟨rfl, fun _ _ hfound => (by cases hfound)⟩
    exact ⟨[], hnone, by simp [layout], by simp [htemp], by simp [hspool]⟩
  | cons member members ih =>
    obtain ⟨next, s₁, hfirst, hrest⟩ := Moves.bind_eq_ok hrun
    obtain ⟨blob, hopened, hmember, rfl, htemp₁, hspool₁⟩ :=
      writeMember_eq_ok hne htemp hspool hfirst
    obtain ⟨blobs, hstreamed, rfl, htemp', hspool'⟩ := ih htemp₁ hspool₁ hrest
    refine ⟨blob :: blobs, hstreamed.cons hopened hmember, ?_, ?_, ?_⟩
    · simp [layout]
    · simpa using htemp'
    · simpa using hspool'

end

/-- A pack that can be written: not empty, its count in 32 bits, its file within bounds. -/
structure PackFits (host : Host) (blobs : List Bytes) : Prop where
  nonempty : blobs ≠ []
  count : blobs.length < 2 ^ 32
  length : (packBytes host blobs).length ≤ maxFileBytes

theorem readWindow_eq {path : Path} {file : Bytes} {offset len : Nat}
    (hfailure : (readWindow faults path file offset len).failure = none) :
    (readWindow faults path file offset len).items = Reader.slice file offset len := by
  unfold readWindow at hfailure ⊢
  dsimp only at hfailure ⊢
  split at hfailure <;> rename_i hfault
  · rfl
  · cases hfailure

theorem encodeTail_ne_nil (table : List MemberEntry) : encodeTail host table ≠ [] := by
  rw [← List.length_pos_iff, length_encodeTail, trailerLen]
  omega

/-- A staged pack is the pack of blobs with the declared digests. -/
theorem writePackSpooled_eq_ok {members : List PackMember}
    {openMember : Nat → Except IoError ByteStream} {pack : Blake3} {table : List MemberEntry}
    {s' : Files} (hne : n ≠ m) (hmembers : members ≠ [])
    (hrun : writePackSpooled host faults (.temp n) (.temp m) members openMember s =
      .ok (pack, table) s') :
    ∃ blobs, PackFits host blobs ∧ Streamed host openMember 0 members blobs ∧
      pack = host.blake3 (packBytes host blobs) ∧ table = packTable host blobs ∧
      s'.disk (.temp n) = some (packBytes host blobs) := by
  have hpaths : (Path.temp n) ≠ .temp m := fun heq => hne (Path.temp.inj heq)
  obtain ⟨_, s₁, hcreate, hrun⟩ := Moves.bind_eq_ok hrun
  obtain ⟨_, rfl⟩ := createFile_eq_ok.mp hcreate
  obtain ⟨_, s₂, hspool, hrun⟩ := Moves.bind_eq_ok hrun
  obtain ⟨_, rfl⟩ := createFile_eq_ok.mp hspool
  obtain ⟨written, s₃, hwritten, hrun⟩ := Moves.bind_eq_ok hrun
  obtain ⟨blobs, hstreamed, rfl, htemp₃, hspool₃⟩ := writeMembers_eq_ok hne
    (by simp [hpaths]) (Files.setFile_same _ _ _) hwritten
  obtain ⟨_, s₄, hseek, hrun⟩ := Moves.bind_eq_ok hrun
  obtain ⟨_, rfl⟩ := touch_eq_ok.mp hseek
  obtain ⟨_, s₅, hget, hrun⟩ := Moves.bind_eq_ok hrun
  cases hget
  simp only [hspool₃, Option.getD_some, List.nil_append] at hrun
  obtain ⟨_, s₆, hreplay, hrun⟩ := Moves.bind_eq_ok hrun
  obtain ⟨happend, hfailure⟩ := stream_eq_ok.mp hreplay
  rw [readWindow_eq hfailure, Reader.slice_zero_length] at happend
  obtain ⟨_, rfl⟩ := append_eq_ok.mp happend
  split at hrun
  · cases hrun
  rename_i hcount
  obtain ⟨_, s₇, htail, hrun⟩ := Moves.bind_eq_ok hrun
  have hlength := append_length_le (encodeTail_ne_nil _) htail
  obtain ⟨_, rfl⟩ := append_eq_ok.mp htail
  obtain ⟨_, s₈, hsync, hrun⟩ := Moves.bind_eq_ok hrun
  obtain ⟨_, rfl⟩ := touch_eq_ok.mp hsync
  cases hrun
  have hblobs : blobs ≠ [] := by
    rintro rfl
    exact hmembers hstreamed.declared
  simp only [htemp₃, Files.setFile_same, Option.getD_some, List.nil_append, List.append_assoc]
    at hlength
  refine ⟨blobs, ⟨hblobs, ?_, ?_⟩, hstreamed, ?_, ?_, ?_⟩
  · simpa using hcount
  · simpa [packBytes, packTable] using hlength
  · simp [packBytes, packTable]
  · simp [packTable]
  · simp [packBytes, packTable, htemp₃]

theorem discarding_eq_ok {α : Type} {path : Path} {act : FsM α} {a : α} {s' : Files}
    (hrun : discarding faults path act s = .ok a s') :
    ∃ mid, act s = .ok a mid ∧ s' = discard faults path mid := by
  unfold discarding at hrun
  split at hrun
  · rename_i mid hact
    cases hrun
    exact ⟨mid, hact, rfl⟩
  · cases hrun
  · cases hrun

theorem discard_disk_ne {path other : Path} (hne : other ≠ path) :
    (discard faults path s).disk other = s.disk other := by
  unfold discard
  split
  · rfl
  · exact Files.setFile_ne hne _

/-- The state a sealed pack's file is put in. -/
def Files.withPack (host : Host) (files : Files) (blobs : List Bytes) : Files :=
  files.setFile (.pack (host.blake3 (packBytes host blobs))) (some (packBytes host blobs))

/-- The state in which a sealed pack's members resolve. -/
def Files.withMapped (host : Host) (files : Files) (blobs : List Bytes) : Files :=
  (files.withPack host blobs).mapPack (host.blake3 (packBytes host blobs)) (packTable host blobs)

theorem SameTree.mapPack {a b : Files} (hsame : SameTree a b) (pack : Blake3)
    (table : List MemberEntry) : SameTree (a.mapPack pack table) (b.mapPack pack table) where
  disk := hsame.disk
  packs := by
    simp only [Files.mapPack, hsame.packs]

theorem SameTree.unmap {a b : Files} (hsame : SameTree a b) (hashes : List Blake3) :
    SameTree (a.unmap hashes) (b.unmap hashes) where
  disk := hsame.disk
  packs := by
    simp only [Files.unmap, hsame.packs]

/-- The staging part of a pack write. -/
theorem stagePack_eq_ok {members : List PackMember}
    {openMember : Nat → Except IoError ByteStream} {pack : Blake3} {table : List MemberEntry}
    {s' : Files} (hne : n ≠ m) (hmembers : members ≠ [])
    (hrun : cleaning faults (.temp n) (discarding faults (.temp m)
      (writePackSpooled host faults (.temp n) (.temp m) members openMember)) s =
        .ok (pack, table) s') :
    ∃ blobs, PackFits host blobs ∧ Streamed host openMember 0 members blobs ∧
      pack = host.blake3 (packBytes host blobs) ∧ table = packTable host blobs ∧
      s'.disk (.temp n) = some (packBytes host blobs) ∧ SameTree s s' := by
  have hsame := final_of_ok
    (cleaning_sameTree (discarding_sameTree (writePackSpooled_sameTree members openMember))) hrun
  obtain ⟨mid, hwrite, rfl⟩ := discarding_eq_ok (cleaning_eq_ok.mp hrun)
  obtain ⟨blobs, hfits, hstreamed, hpack, htable, hstaged⟩ :=
    writePackSpooled_eq_ok hne hmembers hwrite
  refine ⟨blobs, hfits, hstreamed, hpack, htable, ?_, hsame⟩
  rw [discard_disk_ne fun heq => hne (Path.temp.inj heq), hstaged]

/-- A pack write that succeeds has its file in place and its members mapped. -/
theorem putPack_eq_ok {members : List PackMember} {openMember : Nat → Except IoError ByteStream}
    {pack : Blake3} {s' : Files} (hrun : putPack host faults members openMember s = .ok pack s') :
    ∃ blobs, PackFits host blobs ∧ Streamed host openMember 0 members blobs ∧
      pack = host.blake3 (packBytes host blobs) ∧ SameTree (s.withMapped host blobs) s' := by
  unfold putPack at hrun
  split at hrun
  · cases hrun
  rename_i hmembers
  obtain ⟨_, _, ⟨⟩, hrun⟩ := Moves.bind_eq_ok hrun
  obtain ⟨_, _, ⟨⟩, hrun⟩ := Moves.bind_eq_ok hrun
  obtain ⟨⟨_, _⟩, s₁, hstage, hrun⟩ := Moves.bind_eq_ok hrun
  obtain ⟨blobs, hfits, hstreamed, rfl, rfl, hstaged, hsame⟩ :=
    stagePack_eq_ok (by simp) hmembers hstage
  obtain ⟨_, _, hdir, hrun⟩ := Moves.bind_eq_ok hrun
  obtain ⟨_, rfl⟩ := touch_eq_ok.mp hdir
  obtain ⟨_, _, hrename, hrun⟩ := Moves.bind_eq_ok hrun
  obtain ⟨_, bytes, hbytes, rfl⟩ := rename_eq_ok.mp hrename
  obtain ⟨_, _, hsync, hrun⟩ := Moves.bind_eq_ok hrun
  obtain ⟨_, rfl⟩ := touch_eq_ok.mp hsync
  obtain ⟨_, _, ⟨⟩, hrun⟩ := Moves.bind_eq_ok hrun
  cases hrun
  rw [hstaged] at hbytes
  cases hbytes
  have hnamed : SameTree s { s with nextTemp := s.nextTemp + 1 + 1 } := ⟨fun _ _ => rfl, rfl⟩
  have hplaced := ((hnamed.trans hsame).setFile (.pack (host.blake3 (packBytes host blobs)))
    (some (packBytes host blobs))).trans (.moved s₁ s.nextTemp _ _)
  exact ⟨blobs, hfits, hstreamed, rfl, hplaced.mapPack _ _⟩

/-- A pack write that fails has published nothing, or a file that nothing points to. -/
theorem putPack_eq_error {members : List PackMember}
    {openMember : Nat → Except IoError ByteStream} {e : StoreError} {s' : Files}
    (hrun : putPack host faults members openMember s = .error e s') :
    SameTree s s' ∨ ∃ blobs, PackFits host blobs ∧ SameTree (s.withPack host blobs) s' := by
  unfold putPack at hrun
  split at hrun
  · cases hrun
    exact Or.inl (.refl s)
  rename_i hmembers
  rcases Moves.bind_eq_error hrun with hrun | ⟨_, _, ⟨⟩, hrun⟩
  · cases hrun
  rcases Moves.bind_eq_error hrun with hrun | ⟨_, _, ⟨⟩, hrun⟩
  · cases hrun
  have hnamed : SameTree s { s with nextTemp := s.nextTemp + 1 + 1 } := ⟨fun _ _ => rfl, rfl⟩
  rcases Moves.bind_eq_error hrun with hstage | ⟨⟨_, _⟩, s₁, hstage, hrun⟩
  · exact Or.inl (hnamed.trans (final_of_error (cleaning_sameTree
      (discarding_sameTree (writePackSpooled_sameTree members openMember))) hstage))
  obtain ⟨blobs, hfits, -, rfl, rfl, hstaged, hsame⟩ :=
    stagePack_eq_ok (by simp) hmembers hstage
  rcases Moves.bind_eq_error hrun with hdir | ⟨_, _, hdir, hrun⟩
  · exact Or.inl (hnamed.trans (touch_error hdir ▸ hsame))
  obtain ⟨_, rfl⟩ := touch_eq_ok.mp hdir
  rcases Moves.bind_eq_error hrun with hrename | ⟨_, _, hrename, hrun⟩
  · exact Or.inl (hnamed.trans (rename_error hrename ▸ hsame))
  obtain ⟨_, bytes, hbytes, rfl⟩ := rename_eq_ok.mp hrename
  rw [hstaged] at hbytes
  cases hbytes
  have hplaced := ((hnamed.trans hsame).setFile (.pack (host.blake3 (packBytes host blobs)))
    (some (packBytes host blobs))).trans (.moved s₁ s.nextTemp _ _)
  rcases Moves.bind_eq_error hrun with hsync | ⟨_, _, hsync, hrun⟩
  · exact Or.inr ⟨blobs, hfits, touch_error hsync ▸ hplaced⟩
  obtain ⟨_, rfl⟩ := touch_eq_ok.mp hsync
  rcases Moves.bind_eq_error hrun with hrun | ⟨_, _, ⟨⟩, hrun⟩
  · cases hrun
  · cases hrun

end Packs

/-! ## What removals and rewrites publish -/

section Removal

variable {host : Host} {faults : Faults} {s : Files}

theorem Files.setFile_absent {path : Path} (habsent : s.disk path = none) :
    s.setFile path none = s := by
  obtain ⟨disk, packs, nextTemp⟩ := s
  simp only [Files.setFile, Files.mk.injEq, and_true]
  funext other
  split
  · rename_i heq
    rw [heq]
    exact habsent.symm
  · rfl

theorem removeFile_eq_ok {path : Path} {existed : Bool} {s' : Files}
    (hrun : removeFile faults path s = .ok existed s') : s' = s.setFile path none := by
  unfold removeFile at hrun
  split at hrun
  · cases hrun
  · rename_i habsent
    cases hrun
    exact (Files.setFile_absent habsent).symm
  · obtain ⟨_, _, hsync, hrun⟩ := Moves.bind_eq_ok hrun
    obtain ⟨_, rfl⟩ := touch_eq_ok.mp hsync
    cases hrun
    rfl

theorem removeFile_eq_error {path : Path} {e : StoreError} {s' : Files}
    (hrun : removeFile faults path s = .error e s') :
    (faults (.remove path) ≠ none ∨ faults (.syncDir path) ≠ none) ∧
      (s' = s ∨ s' = s.setFile path none) := by
  unfold removeFile at hrun
  split at hrun
  · rename_i hfault
    cases hrun
    exact ⟨Or.inl (by simp [hfault]), Or.inl rfl⟩
  · cases hrun
  · rcases Moves.bind_eq_error hrun with hsync | ⟨_, _, _, hrun⟩
    · refine ⟨Or.inr fun hnone => ?_, Or.inr (touch_error hsync).symm⟩
      rw [touch, hnone] at hsync
      cases hsync
    · cases hrun

/-- Nothing, or one loose blob gone. -/
def EvictEffect (s s' : Files) : Prop :=
  SameBlobs s s' ∨ ∃ ns hash, SameBlobs (s.setFile (.blob ns hash) none) s'

theorem evictLiteral_effect (ns : Namespace) (hash : Blake3) :
    EvictEffect s (final (evictLiteral faults ns hash s)) := by
  cases hrun : evictLiteral faults ns hash s with
  | ok existed s' =>
    rw [final, removeFile_eq_ok hrun]
    exact Or.inr ⟨ns, hash, (SameTree.refl _).sameBlobs⟩
  | error e s' =>
    rcases (removeFile_eq_error hrun).2 with rfl | rfl
    · exact Or.inl (SameTree.refl _).sameBlobs
    · exact Or.inr ⟨ns, hash, (SameTree.refl _).sameBlobs⟩

theorem removeBlob_effect (ns : Namespace) (hash : Blake3) :
    EvictEffect s (final (removeBlob faults ns hash s)) := by
  refine Moves.final_bind nofun ?_
  rintro _ _ ⟨⟩
  have hsame : SameBlobs s (discard faults (.outboard ns hash) s) := by
    unfold discard
    split
    · exact (SameTree.refl s).sameBlobs
    · exact .setOutboard s ns hash none
  have heffect := @evictLiteral_effect faults (discard faults (.outboard ns hash) s) ns hash
  rcases heffect with heffect | ⟨ns', hash', heffect⟩
  · exact Or.inl (hsame.trans heffect)
  · refine Or.inr ⟨ns', hash', SameBlobs.trans ?_ heffect⟩
    refine ⟨fun ns'' hash'' => ?_, fun hash'' => hsame.pack hash'', hsame.packs⟩
    by_cases heq : Path.blob ns'' hash'' = .blob ns' hash'
    · rw [heq, Files.setFile_same, Files.setFile_same]
    · rw [Files.setFile_ne heq, Files.setFile_ne heq, hsame.blob]

/-- The store holds the pack file, with these members in its footer. -/
def Lists (host : Host) (s : Files) (pack : Blake3) (members : List MemberEntry) : Prop :=
  ∃ file, s.disk (.pack pack) = some file ∧ parseFooter host file = .ok members

/-- The survivors of a rewrite are mapped to a new pack, if there are any. -/
def Moved (host : Host) (s : Files) (pack : Blake3) (survivors : List MemberEntry)
    (base : Files) : Prop :=
  (survivors = [] ∧ base = s) ∨ ∃ blobs, PackFits host blobs ∧
    blobs.map host.blake3 = survivors.map MemberEntry.hash ∧
    host.blake3 (packBytes host blobs) ≠ pack ∧ base = s.withMapped host blobs

/-- How a rewrite of `pack` without `drop` can end. -/
inductive RepackResult (host : Host) (faults : Faults) (s : Files) (pack : Blake3)
    (drop : List Blake3) : EStateM.Result StoreError Files RepackOutcome → Prop
  | refused {e s'} (hsame : SameTree s s') : RepackResult host faults s pack drop (.error e s')
  /-- The new pack is in place and nothing points to it. -/
  | staged {e s' blobs} (hfits : PackFits host blobs) (hsame : SameTree (s.withPack host blobs) s') :
      RepackResult host faults s pack drop (.error e s')
  | kept {outcome members} (hlists : Lists host s pack members)
      (hnone : dropped drop members = []) : RepackResult host faults s pack drop (.ok outcome s)
  /-- The new pack is the old one. -/
  | onto {outcome s' members blobs} (hlists : Lists host s pack members)
      (hsome : dropped drop members ≠ []) (hfits : PackFits host blobs)
      (hhashes : blobs.map host.blake3 = (survivors drop members).map MemberEntry.hash)
      (hpack : host.blake3 (packBytes host blobs) = pack)
      (hsame : SameTree ((s.withMapped host blobs).unmap
        ((dropped drop members).map MemberEntry.hash)) s') :
      RepackResult host faults s pack drop (.ok outcome s')
  | unlinked {outcome s' members base} (hlists : Lists host s pack members)
      (hsome : dropped drop members ≠ []) (hmoved : Moved host s pack (survivors drop members) base)
      (hsame : SameTree ((base.unmap ((dropped drop members).map MemberEntry.hash)).setFile
        (.pack pack) none) s') : RepackResult host faults s pack drop (.ok outcome s')
  /-- The dropped members are forgotten, and the old file could not be unlinked for good. -/
  | failed {e s' members base} (hlists : Lists host s pack members)
      (hsome : dropped drop members ≠ []) (hmoved : Moved host s pack (survivors drop members) base)
      (hfault : faults (.remove (.pack pack)) ≠ none ∨ faults (.syncDir (.pack pack)) ≠ none)
      (hsame : SameTree (base.unmap ((dropped drop members).map MemberEntry.hash)) s' ∨
        SameTree ((base.unmap ((dropped drop members).map MemberEntry.hash)).setFile
          (.pack pack) none) s') : RepackResult host faults s pack drop (.error e s')

theorem openPack_eq_ok {pack : Blake3} {nth : Nat} {file : Bytes} {s' : Files}
    (hrun : openPack faults pack nth s = .ok file s') :
    s.disk (.pack pack) = some file ∧ s = s' := by
  unfold openPack at hrun
  split at hrun
  · cases hrun
  · cases hrun
  · rename_i hfile
    cases hrun
    exact ⟨hfile, rfl⟩

theorem openPack_eq_error {pack : Blake3} {nth : Nat} {e : StoreError} {s' : Files}
    (hrun : openPack faults pack nth s = .error e s') : s = s' := by
  unfold openPack at hrun
  split at hrun <;> cases hrun
  · rfl
  · rfl

theorem readTable_eq_ok {pack : Blake3} {file : Bytes} {members : List MemberEntry} {s' : Files}
    (hrun : readTable host faults pack file s = .ok members s') :
    parseFooter host file = .ok members ∧ s = s' := by
  unfold readTable at hrun
  cases hfault : faults (.footer (.pack pack)) with
  | some e =>
    rw [hfault] at hrun
    cases hrun
  | none =>
    rw [hfault] at hrun
    cases hparse : parseFooter host file with
    | error detail =>
      rw [hparse] at hrun
      cases hrun
    | ok found =>
      rw [hparse] at hrun
      cases hrun
      exact ⟨rfl, rfl⟩

theorem readTable_eq_error {pack : Blake3} {file : Bytes} {e : StoreError} {s' : Files}
    (hrun : readTable host faults pack file s = .error e s') : s = s' := by
  unfold readTable at hrun
  cases hfault : faults (.footer (.pack pack)) with
  | some e =>
    rw [hfault] at hrun
    cases hrun
    rfl
  | none =>
    rw [hfault] at hrun
    cases hparse : parseFooter host file with
    | error detail =>
      rw [hparse] at hrun
      cases hrun
      rfl
    | ok found =>
      rw [hparse] at hrun
      cases hrun

/-- A pack without survivors: all its members are dropped. -/
theorem dropped_of_survivors_nil {drop : List Blake3} {members : List MemberEntry}
    (hnone : survivors drop members = []) : dropped drop members = members := by
  rw [survivors, List.filter_eq_nil_iff] at hnone
  exact List.filter_eq_self.mpr (by simpa using hnone)

/-- The end of a rewrite: forget the dropped members, then unlink the old file. -/
theorem forget_unlink_result {pack : Blake3} {drop : List Blake3} {members : List MemberEntry}
    {base mid : Files} (outcome : RepackOutcome) (hlists : Lists host s pack members)
    (hsome : dropped drop members ≠ []) (hmoved : Moved host s pack (survivors drop members) base)
    (hmid : SameTree base mid) :
    RepackResult host faults s pack drop
      ((do
        modify fun files => files.unmap ((dropped drop members).map MemberEntry.hash)
        let _ ← removeFile faults (.pack pack)
        pure outcome : FsM RepackOutcome) mid) := by
  have hunmapped := hmid.unmap ((dropped drop members).map MemberEntry.hash)
  rw [bind_apply]
  change RepackResult host faults s pack drop ((removeFile faults (.pack pack) >>= fun _ =>
    pure outcome) (mid.unmap ((dropped drop members).map MemberEntry.hash)))
  rw [bind_apply]
  cases hrun : removeFile faults (.pack pack)
      (mid.unmap ((dropped drop members).map MemberEntry.hash)) with
  | ok existed s' =>
    refine .unlinked hlists hsome hmoved ?_
    rw [removeFile_eq_ok hrun]
    exact hunmapped.setFile _ _
  | error e s' =>
    obtain ⟨hfault, hends⟩ := removeFile_eq_error hrun
    refine .failed hlists hsome hmoved hfault ?_
    rcases hends with rfl | rfl
    · exact Or.inl hunmapped
    · exact Or.inr (hunmapped.setFile _ _)

theorem repack_result (pack : Blake3) (drop : List Blake3) :
    RepackResult host faults s pack drop (repack host faults pack drop s) := by
  unfold repack
  rw [bind_apply]
  cases hopen : openPack faults pack 0 s with
  | error e s' => exact .refused (openPack_eq_error hopen ▸ .refl s)
  | ok file s' =>
    obtain ⟨hfile, rfl⟩ := openPack_eq_ok hopen
    dsimp only
    rw [bind_apply]
    cases htable : readTable host faults pack file s with
    | error e s' => exact .refused (readTable_eq_error htable ▸ .refl s)
    | ok members s' =>
      obtain ⟨hparse, rfl⟩ := readTable_eq_ok htable
      have hlists : Lists host s pack members := ⟨file, hfile, hparse⟩
      dsimp only
      split
      · rename_i hnone
        exact .kept hlists hnone
      rename_i hsome
      split
      · rename_i hempty
        have hmembers := dropped_of_survivors_nil hempty
        have hresult := @forget_unlink_result host faults s pack drop members s s
          (RepackOutcome.mk none ((dropped drop members).map MemberEntry.hash)
            ((dropped drop members).map MemberEntry.len).sum)
          hlists hsome (Or.inl ⟨hempty, rfl⟩) (.refl s)
        rw [hmembers] at hresult ⊢
        exact hresult
      · rw [bind_apply]
        cases hreopen : openPack faults pack 1 s with
        | error e s' => exact .refused (openPack_eq_error hreopen ▸ .refl s)
        | ok old s' =>
          obtain ⟨_, rfl⟩ := openPack_eq_ok hreopen
          dsimp only
          rw [bind_apply]
          cases hput : putPack host faults
              ((survivors drop members).map fun member => ⟨member.hash, member.len⟩)
              (openSurvivor faults pack old (survivors drop members)) s with
          | error e s' =>
            rcases putPack_eq_error hput with hsame | ⟨blobs, hfits, hsame⟩
            · exact .refused hsame
            · exact .staged hfits hsame
          | ok newPack mid =>
            obtain ⟨blobs, hfits, hstreamed, rfl, hmid⟩ := putPack_eq_ok hput
            have hhashes := hstreamed.hashes
            rw [List.map_map] at hhashes
            dsimp only
            by_cases hpack : host.blake3 (packBytes host blobs) = pack
            · simp only [if_pos hpack]
              exact .onto hlists hsome hfits hhashes hpack (hmid.unmap _)
            · simp only [if_neg hpack]
              exact forget_unlink_result _ hlists hsome
                (Or.inr ⟨blobs, hfits, hhashes, hpack, rfl⟩) hmid

end Removal

end Datboi.StoreFs
