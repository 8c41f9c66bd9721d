import Datboi.Lib.Tiling
import Datboi.Store.Effects
import Datboi.Store.Sound

/-!
# What an accepted pack is made of

The footer of a pack describes neither where its outboard section starts nor how long it is.
Still, every file that the parser accepts is its members' windows, their trees' windows, the
footer that encodes the table and its trailer, each behind the other with nothing in between.
-/

namespace Datboi.StoreFs

open Tiling (BackToBack)
open Wire (ofLe toLe)

variable {host : Host}

namespace MemberEntry

def window (member : MemberEntry) : Nat × Nat := (member.offset, member.len)

def treeWindow (member : MemberEntry) : Nat × Nat := (member.obaoOffset, member.obaoLen)

end MemberEntry

/-- The windows of the members and of their trees tile the file up to its footer, which encodes
the members. -/
structure PackTiles (host : Host) (file : Bytes) (members : List MemberEntry) : Prop where
  nonempty : members ≠ []
  sized : ∀ member ∈ members, member.obaoLen = outboardSize member.len
  windows : BackToBack 0 (members.map MemberEntry.window ++ members.map MemberEntry.treeWindow)
    (file.length - (encodeTail host members).length)
  whole : file = (members.flatMap fun member => Reader.slice file member.offset member.len) ++
    ((members.flatMap fun member => Reader.slice file member.obaoOffset member.obaoLen) ++
      encodeTail host members)

/-! ## The rows of an accepted table -/

/-- Rows that were read lie back to back, and encode to what they were read from. -/
theorem parseRows_eq_ok {count expect cursor stop : Nat} {bytes : Bytes}
    {rows : List (Blake3 × Nat × Nat)} (hlength : bytes.length = count * memberRow)
    (hparse : parseRows count expect bytes = .ok (rows, stop)) :
    rows.length = count ∧ BackToBack expect (rows.map Prod.snd) stop ∧
      (deriveTrees cursor rows).flatMap encodeRow = bytes := by
  induction count generalizing expect cursor bytes rows with
  | zero =>
    cases hparse
    rw [Nat.zero_mul, List.length_eq_zero_iff] at hlength
    exact ⟨rfl, rfl, hlength.symm⟩
  | succ count ih =>
    rw [Nat.succ_mul, memberRow] at hlength
    rw [parseRows] at hparse
    split at hparse
    · cases hparse
    rename_i hoffset
    split at hparse
    · cases hparse
    obtain ⟨⟨rest, stop'⟩, hrest, hparse⟩ := Decoding.bind_eq_ok.mp hparse
    cases hparse
    have hrestLength : (bytes.drop memberRow).length = count * memberRow := by
      rw [List.length_drop, memberRow]
      omega
    obtain ⟨hcount, hwindows, hencoded⟩ :=
      @ih _ (cursor + outboardSize (ofLe ((bytes.drop 40).take 8))) _ _ hrestLength hrest
    refine ⟨congrArg Nat.succ hcount, ⟨not_not.mp hoffset, ?_⟩, ?_⟩
    · rw [← not_not.mp hoffset]
      exact hwindows
    · have hhash : (Blake3.ofBytes (bytes.take 32)).toBytes = bytes.take 32 :=
        Blake3.toBytes_ofBytes (List.length_take_of_le (by omega))
      have hword : ∀ start, start + 8 ≤ 48 →
          toLe 8 (ofLe ((bytes.drop start).take 8)) = (bytes.drop start).take 8 := by
        intro start hstart
        refine Wire.toLe_ofLe ?_
        rw [List.length_take, List.length_drop]
        omega
      rw [deriveTrees, List.flatMap_cons, hencoded, encodeRow, hhash, hword 32 (by omega),
        hword 40 (by omega), memberRow, List.append_assoc, List.append_assoc,
        ← List.drop_drop (i := 8) (j := 40), List.take_append_drop,
        ← List.drop_drop (i := 8) (j := 32), List.take_append_drop, List.take_append_drop]

/-- Derived trees lie back to back behind `cursor`. -/
theorem treesEnd_eq_ok {cursor stop : Nat} {rows : List (Blake3 × Nat × Nat)}
    (hends : treesEnd cursor rows = .ok stop) :
    BackToBack cursor ((deriveTrees cursor rows).map MemberEntry.treeWindow) stop := by
  induction rows generalizing cursor with
  | nil =>
    cases hends
    rfl
  | cons row rows ih =>
    rw [treesEnd] at hends
    split at hends
    · cases hends
    exact ⟨rfl, ih hends⟩

theorem map_window_deriveTrees (cursor : Nat) (rows : List (Blake3 × Nat × Nat)) :
    (deriveTrees cursor rows).map MemberEntry.window = rows.map Prod.snd := by
  induction rows generalizing cursor with
  | nil => rfl
  | cons row rows ih => rw [deriveTrees, List.map_cons, List.map_cons, ih]; rfl

theorem obaoLen_deriveTrees {cursor : Nat} {rows : List (Blake3 × Nat × Nat)}
    {member : MemberEntry} (hmem : member ∈ deriveTrees cursor rows) :
    member.obaoLen = outboardSize member.len := by
  induction rows generalizing cursor with
  | nil => cases hmem
  | cons row rows ih =>
    rw [deriveTrees] at hmem
    rcases List.mem_cons.mp hmem with rfl | hmem
    · rfl
    · exact ih hmem

/-! ## The file of an accepted footer -/

/-- An accepted table is what `encodeFooter` writes behind the magic, and its windows end where
the footer starts. -/
theorem parseTable_eq_ok {table : Bytes} {footerStart : Nat} {members : List MemberEntry}
    (hparse : parseTable table footerStart = .ok members) :
    members ≠ [] ∧ (∀ member ∈ members, member.obaoLen = outboardSize member.len) ∧
      toLe 4 members.length ++ members.flatMap encodeRow = table ∧
      ∃ dataEnd, BackToBack 0 (members.map MemberEntry.window) dataEnd ∧
        BackToBack dataEnd (members.map MemberEntry.treeWindow) footerStart := by
  unfold parseTable at hparse
  split at hparse
  · cases hparse
  rename_i hshort
  dsimp only at hparse
  split at hparse
  · cases hparse
  rename_i hzero
  split at hparse
  · cases hparse
  rename_i hlength
  obtain ⟨⟨rows, dataEnd⟩, hrows, hparse⟩ := Decoding.bind_eq_ok.mp hparse
  obtain ⟨cursor, hends, hparse⟩ := Decoding.bind_eq_ok.mp hparse
  dsimp only at hends hparse
  split at hparse
  · cases hparse
  rename_i hcursor
  cases hparse
  obtain ⟨hcount, hwindows, hencoded⟩ :=
    @parseRows_eq_ok _ _ dataEnd _ _ _ (not_not.mp hlength) hrows
  have hwidth : (table.take 4).length = 4 := List.length_take_of_le (by omega)
  refine ⟨?_, fun member => obaoLen_deriveTrees, ?_, dataEnd, ?_, ?_⟩
  · rw [← List.length_pos_iff, length_deriveTrees, hcount]
    exact Nat.pos_of_ne_zero hzero
  · rw [length_deriveTrees, hcount, hencoded]
    rw [Wire.toLe_ofLe hwidth, List.take_append_drop]
  · rw [map_window_deriveTrees]
    exact hwindows
  · rw [← not_not.mp hcursor]
    exact treesEnd_eq_ok hends

theorem encodeTail_eq (members : List MemberEntry) :
    encodeTail host members = encodeFooter members ++
      ((host.blake3 (encodeFooter members)).toBytes ++
        (toLe 8 (encodeFooter members).length ++ packTrailer)) := by
  simp only [encodeTail, List.append_assoc]

section

variable {members : List MemberEntry} {file : Bytes} (hparse : parseFooter host file = .ok members)

include hparse

/-- What follows the windows of an accepted file is the encoded footer and its trailer. -/
theorem parseFooter_eq_ok :
    ∃ footerStart, parseTable (encodeFooter members |>.drop packMagic.length) footerStart =
        .ok members ∧ file.drop footerStart = encodeTail host members ∧
      footerStart + (encodeTail host members).length = file.length := by
  unfold parseFooter at hparse
  dsimp only at hparse
  split at hparse
  · cases hparse
  rename_i hshort
  split at hparse
  · cases hparse
  rename_i hmagic
  split at hparse
  · cases hparse
  rename_i hlong
  split at hparse
  · cases hparse
  rename_i hhash
  split at hparse
  · cases hparse
  rename_i hprefix
  generalize hlen : ofLe (((file.drop (file.length - trailerLen)).drop 32).take 8) = footerLen at *
  generalize hstart : file.length - trailerLen - footerLen = footerStart at *
  generalize hfooter : Reader.slice file footerStart footerLen = footer at *
  rw [trailerLen] at hshort hlong
  have hfooterLen : footer.length = footerLen := by
    rw [← hfooter, Reader.length_slice, ← hstart, trailerLen]
    omega
  have htrailerLen : (file.drop (file.length - trailerLen)).length = trailerLen := by
    rw [List.length_drop, trailerLen]
    omega
  have hencoded : encodeFooter members = footer := by
    obtain ⟨-, -, htable, -⟩ := parseTable_eq_ok hparse
    have hwhole := List.take_append_drop packMagic.length footer
    rw [not_not.mp hprefix] at hwhole
    rw [encodeFooter, List.append_assoc, htable, hwhole]
  have hbehind : file.drop (footerStart + footerLen) = file.drop (file.length - trailerLen) := by
    congr 1
    rw [← hstart, trailerLen]
    omega
  have htail : file.drop footerStart = encodeTail host members := by
    rw [encodeTail_eq, hencoded, not_not.mp hhash, hfooterLen, ← hlen, ← not_not.mp hmagic,
      Wire.toLe_ofLe, Blake3.toBytes_ofBytes, ← List.drop_drop (i := 8) (j := 32),
      List.take_append_drop, List.take_append_drop, ← hbehind, ← hfooter, Reader.slice,
      ← List.drop_drop, List.take_append_drop]
    · rw [List.length_take, htrailerLen]
      rfl
    · rw [List.length_take, List.length_drop, htrailerLen]
      rfl
  refine ⟨footerStart, ?_, htail, ?_⟩
  · rw [hencoded]
    exact hparse
  · rw [← htail, List.length_drop, ← hstart, trailerLen]
    omega

/-- Windows and tail of an accepted file tile it. -/
theorem packTiles_of_parseFooter : PackTiles host file members := by
  obtain ⟨footerStart, htable, htail, hlength⟩ := parseFooter_eq_ok hparse
  obtain ⟨hnonempty, hsized, -, dataEnd, hdata, htrees⟩ := parseTable_eq_ok htable
  have hstart : file.length - (encodeTail host members).length = footerStart := by omega
  have hwindows := BackToBack.append_iff.mpr ⟨dataEnd, hdata, htrees⟩
  refine ⟨hnonempty, hsized, ?_, ?_⟩
  · rw [hstart]
    exact hwindows
  · have hslices := hwindows.flatMap_slice file
    rw [List.flatMap_append, List.flatMap_map, List.flatMap_map, Nat.sub_zero, Reader.slice,
      List.drop_zero] at hslices
    rw [← List.append_assoc]
    exact (List.take_append_drop footerStart file).symm.trans
      (congrArg₂ (· ++ ·) hslices.symm htail)

end

namespace PackTiles

variable {file : Bytes} {members : List MemberEntry}

/-- No member reaches into another, nor into any tree. -/
theorem disjoint (htiles : PackTiles host file members) :
    (members.map MemberEntry.window ++ members.map MemberEntry.treeWindow).Pairwise
      fun a b => a.1 + a.2 ≤ b.1 := htiles.windows.disjoint

/-- Members and trees lie before the footer. -/
theorem inBounds (htiles : PackTiles host file members) {member : MemberEntry}
    (hmem : member ∈ members) :
    member.offset + member.len ≤ file.length - (encodeTail host members).length ∧
      member.obaoOffset + member.obaoLen ≤ file.length - (encodeTail host members).length :=
  ⟨(htiles.windows.bounds (List.mem_append_left _ (List.mem_map_of_mem hmem))).2,
    (htiles.windows.bounds (List.mem_append_right _ (List.mem_map_of_mem hmem))).2⟩

end PackTiles

/-- A written pack parses back to the table that the store maps, whose windows hold the streamed
members and their outboards; and whatever the parser accepts is tiled by its windows. -/
theorem pack_roundTrip (hsized : OutboardSized host) :
    (∀ faults members openMember s pack s',
      putPack host faults members openMember s = .ok pack s' →
      ∃ blobs file table,
        members = blobs.map (fun blob => ⟨host.blake3 blob, blob.length⟩) ∧
        (∀ ix blob, blobs[ix]? = some blob → openMember ix = .ok ⟨blob, none⟩) ∧
        s'.disk (.pack pack) = some file ∧ s'.packs = (s.mapPack pack table).packs ∧
        parseFooter host file = .ok table ∧
        List.Forall₂ (MemberEntry.Describes host file) table blobs) ∧
    ∀ file members, parseFooter host file = .ok members →
      PackTiles host file members ∧
      (members.map MemberEntry.window ++ members.map MemberEntry.treeWindow).Pairwise
        (fun a b => a.1 + a.2 ≤ b.1) ∧
      ∀ member ∈ members,
        member.offset + member.len ≤ file.length - (encodeTail host members).length ∧
        member.obaoOffset + member.obaoLen ≤ file.length - (encodeTail host members).length := by
  refine ⟨?_, ?_⟩
  · intro faults members openMember s pack s' hrun
    obtain ⟨blobs, hfits, hstreamed, rfl, hsame⟩ := putPack_eq_ok hrun
    refine ⟨blobs, packBytes host blobs, packTable host blobs, hstreamed.declared, ?_, ?_, ?_,
      hfits.parseFooter hsized, packTable_describes hsized blobs⟩
    · intro ix blob hblob
      have hopened := hstreamed.opened ix blob hblob
      rwa [Nat.zero_add] at hopened
    · exact (hsame.pack_disk _).trans (withMapped_disk host s blobs)
    · exact hsame.packs
  · intro file members hparse
    have htiles := packTiles_of_parseFooter hparse
    exact ⟨htiles, htiles.disjoint, fun member => htiles.inBounds⟩

/-- The pack of one blob. -/
theorem pack_roundTrip_seven :
    ∃ pack file table s', putPack sizedHost noFaults [⟨8, 1⟩] (fun _ => .ok ⟨[7], none⟩)
        Files.empty = .ok pack s' ∧ s'.disk (.pack pack) = some file ∧
      parseFooter sizedHost file = .ok table ∧
      List.Forall₂ (MemberEntry.Describes sizedHost file) table [[7]] := by
  have hfailed : Moves.failed (putPack sizedHost noFaults [⟨8, 1⟩] (fun _ => .ok ⟨[7], none⟩)
      Files.empty) = false := by
    decide +kernel
  obtain ⟨pack, s', hrun⟩ := Moves.eq_ok_of_not_failed hfailed
  obtain ⟨blobs, file, table, hdeclared, hopened, hfile, -, hparse, hdescribes⟩ :=
    (pack_roundTrip sizedHost_sized).1 noFaults [⟨8, 1⟩] (fun _ => .ok ⟨[7], none⟩) Files.empty
      pack s' hrun
  cases blobs with
  | nil => cases hdeclared
  | cons blob blobs =>
    cases blobs with
    | nil =>
      have hblob := hopened 0 blob rfl
      cases hblob
      exact ⟨pack, file, table, s', hrun, hfile, hparse, hdescribes⟩
    | cons other blobs =>
      have hlength := congrArg List.length hdeclared
      simp at hlength

/-- The file of that pack. -/
def sevenFile : Bytes := packBytes sizedHost [[7]]

theorem length_sevenFile : sevenFile.length = 115 := by
  rw [sevenFile, length_packBytes]
  rfl

theorem parseFooter_sevenFile :
    parseFooter sizedHost sevenFile = .ok (packTable sizedHost [[7]]) :=
  parseFooter_packBytes sizedHost_sized (List.cons_ne_nil _ _) (by decide)
    (Nat.lt_of_le_of_lt (Nat.le_of_eq length_sevenFile) (by decide))

end Datboi.StoreFs
