import Datboi.Core.Decoding
import Datboi.Store.Store

/-!
# Sealed packs

A pack file holds its members back to back, their outboard trees in member order, a footer that
lists the members and a trailer that locates and authenticates the footer from the end. The
outboard section is not described: the parser derives it from the member lengths, and refuses a
file that members, trees, footer and trailer do not tile.
-/

namespace Datboi.StoreFs

open Cbor (textBytes)
open Wire (ofLe toLe)

def packMagic : Bytes := textBytes "datboi/pack/1\n"
def packTrailer : Bytes := textBytes "DBOIPACK"
/-- The digest of the footer, its length and the trailer magic. -/
def trailerLen : Nat := 48
/-- Digest, offset and length. -/
def memberRow : Nat := 48

/-- One member as the footer and the derived outboard section describe it. -/
structure MemberEntry where
  hash : Blake3
  offset : Nat
  len : Nat
  obaoOffset : Nat
  obaoLen : Nat
  deriving DecidableEq, Repr

def encodeRow (member : MemberEntry) : Bytes :=
  member.hash.toBytes ++ toLe 8 member.offset ++ toLe 8 member.len

/-- The footer of a table whose member count fits 32 bits. -/
def encodeFooter (members : List MemberEntry) : Bytes :=
  packMagic ++ toLe 4 members.length ++ members.flatMap encodeRow

/-- Give each member its tree's window, from `cursor` on. -/
def deriveTrees : Nat → List (Blake3 × Nat × Nat) → List MemberEntry
  | _, [] => []
  | cursor, (hash, offset, len) :: rows =>
    ⟨hash, offset, len, cursor, outboardSize len⟩ ::
      deriveTrees (cursor + outboardSize len) rows

/-- The rows of the member table: contiguous from `expect`, ending at the second component. -/
def parseRows : Nat → Nat → Bytes → Except String (List (Blake3 × Nat × Nat) × Nat)
  | 0, expect, _ => .ok ([], expect)
  | count + 1, expect, bytes =>
    let hash := Blake3.ofBytes (bytes.take 32)
    let offset := ofLe ((bytes.drop 32).take 8)
    let len := ofLe ((bytes.drop 40).take 8)
    if offset ≠ expect then .error "member rows are not contiguous from zero"
    else if 2 ^ 64 ≤ offset + len then .error "member length overflows the pack"
    else do
      let (rows, stop) ← parseRows count (offset + len) (bytes.drop memberRow)
      .ok ((hash, offset, len) :: rows, stop)

/-- Where the derived section ends; the sum must not overflow. -/
def treesEnd : Nat → List (Blake3 × Nat × Nat) → Except String Nat
  | cursor, [] => .ok cursor
  | cursor, (_, _, len) :: rows =>
    if 2 ^ 64 ≤ cursor + outboardSize len then .error "outboard section overflows the pack"
    else treesEnd (cursor + outboardSize len) rows

/-- Parse the footer after its magic into the member table of a file whose footer starts at
`footerStart`. -/
def parseTable (table : Bytes) (footerStart : Nat) : Except String (List MemberEntry) :=
  if table.length < 4 then .error "truncated member count"
  else
    let count := ofLe (table.take 4)
    if count = 0 then .error "empty member table"
    else if (table.drop 4).length ≠ count * memberRow then
      .error "member table length disagrees with the count"
    else do
      let (rows, stop) ← parseRows count 0 (table.drop 4)
      let cursor ← treesEnd stop rows
      if cursor ≠ footerStart then .error "outboard section does not tile the file"
      else .ok (deriveTrees stop rows)

/-- Parse a pack file's footer, authenticated against the trailer. -/
def parseFooter (host : Host) (file : Bytes) : Except String (List MemberEntry) :=
  let total := file.length
  if total < trailerLen then .error "shorter than the trailer"
  else
    let trailer := file.drop (total - trailerLen)
    if trailer.drop 40 ≠ packTrailer then .error "missing trailer magic"
    else
      let footerHash := Blake3.ofBytes (trailer.take 32)
      let footerLen := ofLe ((trailer.drop 32).take 8)
      if total - trailerLen < footerLen then .error "footer length exceeds the file"
      else
        let footerStart := total - trailerLen - footerLen
        let footer := Reader.slice file footerStart footerLen
        if host.blake3 footer ≠ footerHash then .error "footer does not match its trailer hash"
        else if footer.take packMagic.length ≠ packMagic then .error "missing footer magic"
        else parseTable (footer.drop packMagic.length) footerStart

/-- What follows the outboard section. -/
def encodeTail (host : Host) (table : List MemberEntry) : Bytes :=
  let footer := encodeFooter table
  footer ++ (host.blake3 footer).toBytes ++ toLe 8 footer.length ++ packTrailer

/-! ## The pack of a list of blobs -/

section PackBytes

variable (host : Host)

/-- The rows of blobs laid out back to back from `offset`. -/
def layout : Nat → List Bytes → List (Blake3 × Nat × Nat)
  | _, [] => []
  | offset, blob :: blobs =>
    (host.blake3 blob, offset, blob.length) :: layout (offset + blob.length) blobs

def packTable (blobs : List Bytes) : List MemberEntry :=
  deriveTrees blobs.flatten.length (layout host 0 blobs)

def packBytes (blobs : List Bytes) : Bytes :=
  blobs.flatten ++ (blobs.flatMap host.outboard ++ encodeTail host (packTable host blobs))

/-- The outboard of a blob has the size of the tree over its groups. -/
def OutboardSized : Prop := ∀ bytes, (host.outboard bytes).length = outboardSize bytes.length

end PackBytes

variable {host : Host}

@[simp] theorem length_layout (offset : Nat) (blobs : List Bytes) :
    (layout host offset blobs).length = blobs.length := by
  induction blobs generalizing offset with
  | nil => rfl
  | cons blob blobs ih => rw [layout, List.length_cons, List.length_cons, ih]

@[simp] theorem length_deriveTrees (cursor : Nat) (rows : List (Blake3 × Nat × Nat)) :
    (deriveTrees cursor rows).length = rows.length := by
  induction rows generalizing cursor with
  | nil => rfl
  | cons row rows ih => rw [deriveTrees, List.length_cons, List.length_cons, ih]

@[simp] theorem length_encodeRow (member : MemberEntry) : (encodeRow member).length = memberRow := by
  simp [encodeRow, memberRow]

theorem length_flatMap_encodeRow (members : List MemberEntry) :
    (members.flatMap encodeRow).length = members.length * memberRow := by
  induction members with
  | nil => simp
  | cons member members ih =>
    rw [List.flatMap_cons, List.length_append, length_encodeRow, ih, List.length_cons,
      Nat.succ_mul, Nat.add_comm]

theorem length_encodeTail (table : List MemberEntry) :
    (encodeTail host table).length = (encodeFooter table).length + trailerLen := by
  simp [encodeTail, trailerLen, show packTrailer.length = 8 by decide]

/-- The fields of a row, cut out of what follows it. -/
theorem encodeRow_fields (member : MemberEntry) (rest : Bytes) :
    (encodeRow member ++ rest).take 32 = member.hash.toBytes ∧
      ((encodeRow member ++ rest).drop 32).take 8 = toLe 8 member.offset ∧
      ((encodeRow member ++ rest).drop 40).take 8 = toLe 8 member.len ∧
      (encodeRow member ++ rest).drop memberRow = rest := by
  have hrow : encodeRow member ++ rest =
      member.hash.toBytes ++ (toLe 8 member.offset ++ (toLe 8 member.len ++ rest)) := by
    simp only [encodeRow, List.append_assoc]
  have hoffset : (encodeRow member ++ rest).drop 32 =
      toLe 8 member.offset ++ (toLe 8 member.len ++ rest) := by
    rw [hrow, List.drop_left' member.hash.length_toBytes]
  have hlen : (encodeRow member ++ rest).drop 40 = toLe 8 member.len ++ rest := by
    rw [← List.drop_drop (i := 8) (j := 32), hoffset, List.drop_left' (Wire.length_toLe _ _)]
  refine ⟨?_, ?_, ?_, ?_⟩
  · rw [hrow, List.take_left' member.hash.length_toBytes]
  · rw [hoffset, List.take_left' (Wire.length_toLe _ _)]
  · rw [hlen, List.take_left' (Wire.length_toLe _ _)]
  · rw [List.drop_left' (length_encodeRow member)]

/-- The parser reads back the rows of a layout. -/
theorem parseRows_layout {offset cursor : Nat} {blobs : List Bytes}
    (hfits : offset + blobs.flatten.length < 2 ^ 64) :
    parseRows blobs.length offset
        ((deriveTrees cursor (layout host offset blobs)).flatMap encodeRow) =
      .ok (layout host offset blobs, offset + blobs.flatten.length) := by
  induction blobs generalizing offset cursor with
  | nil => rfl
  | cons blob blobs ih =>
    rw [List.flatten_cons, List.length_append] at hfits ⊢
    have hrest := @ih (offset + blob.length) (cursor + outboardSize blob.length) (by omega)
    simp only [layout, deriveTrees, List.flatMap_cons, List.length_cons, parseRows]
    obtain ⟨hhash, hoffset, hlen, htail⟩ := encodeRow_fields
      ⟨host.blake3 blob, offset, blob.length, cursor, outboardSize blob.length⟩
      ((deriveTrees (cursor + outboardSize blob.length)
        (layout host (offset + blob.length) blobs)).flatMap encodeRow)
    have hoffset' : ofLe (toLe 8 offset) = offset := Wire.ofLe_toLe (by omega)
    have hlen' : ofLe (toLe 8 blob.length) = blob.length := Wire.ofLe_toLe (by omega)
    simp only [hhash, hoffset, hlen, htail, Blake3.ofBytes_toBytes, hoffset', hlen']
    rw [if_neg (not_not.mpr rfl), if_neg (by omega), hrest]
    simp only [Decoding.ok_bind, Nat.add_assoc]

variable {blobs : List Bytes}

/-- The derived section has the length of the trees. -/
theorem treesEnd_layout (hsized : OutboardSized host) {offset cursor : Nat}
    (hfits : cursor + (blobs.flatMap host.outboard).length < 2 ^ 64) :
    treesEnd cursor (layout host offset blobs) =
      .ok (cursor + (blobs.flatMap host.outboard).length) := by
  induction blobs generalizing offset cursor with
  | nil => rfl
  | cons blob blobs ih =>
    rw [List.flatMap_cons, List.length_append, hsized blob] at hfits ⊢
    rw [layout, treesEnd, if_neg (by omega), ih (by omega), Nat.add_assoc]

theorem parseTable_layout (hsized : OutboardSized host) (hblobs : blobs ≠ [])
    (hcount : blobs.length < 2 ^ 32)
    (hfits : blobs.flatten.length + (blobs.flatMap host.outboard).length < 2 ^ 64) :
    parseTable (toLe 4 blobs.length ++ (packTable host blobs).flatMap encodeRow)
        (blobs.flatten.length + (blobs.flatMap host.outboard).length) =
      .ok (packTable host blobs) := by
  have hpos := List.length_pos_iff.mpr hblobs
  have hrows := @parseRows_layout host 0 blobs.flatten.length blobs (by omega)
  rw [Nat.zero_add] at hrows
  unfold parseTable
  rw [if_neg (by simp), List.take_left' (Wire.length_toLe _ _), Wire.ofLe_toLe (by omega),
    List.drop_left' (Wire.length_toLe _ _), length_flatMap_encodeRow]
  simp only [packTable, length_deriveTrees, length_layout, hrows]
  rw [if_neg (by omega), if_neg (not_not.mpr rfl)]
  simp only [Decoding.ok_bind, treesEnd_layout hsized hfits, ne_eq, not_true_eq_false, if_false]

/-- The trailer's fields, and the footer it locates. -/
theorem encodeTail_fields {table : List MemberEntry} (body : Bytes) :
    let file := body ++ encodeTail host table
    let footer := encodeFooter table
    let trailer := file.drop (file.length - trailerLen)
    trailer.take 32 = (host.blake3 footer).toBytes ∧
      (trailer.drop 32).take 8 = toLe 8 footer.length ∧ trailer.drop 40 = packTrailer ∧
      file.length - trailerLen - footer.length = body.length ∧
      Reader.slice file body.length footer.length = footer := by
  intro file footer trailer
  have hlength : file.length = body.length + (footer.length + trailerLen) := by
    rw [List.length_append, length_encodeTail]
  have hfile : file = (body ++ footer) ++ ((host.blake3 footer).toBytes ++
      (toLe 8 footer.length ++ packTrailer)) := by
    simp only [file, encodeTail, footer, List.append_assoc]
  have htrailer : trailer =
      (host.blake3 footer).toBytes ++ (toLe 8 footer.length ++ packTrailer) := by
    simp only [trailer]
    rw [hlength, hfile, List.drop_left']
    rw [List.length_append]
    omega
  have hafter : trailer.drop 32 = toLe 8 footer.length ++ packTrailer := by
    rw [htrailer, List.drop_left' (host.blake3 footer).length_toBytes]
  refine ⟨?_, ?_, ?_, by omega, ?_⟩
  · rw [htrailer, List.take_left' (host.blake3 footer).length_toBytes]
  · rw [hafter, List.take_left' (Wire.length_toLe _ _)]
  · rw [← List.drop_drop (i := 8) (j := 32), hafter, List.drop_left' (Wire.length_toLe _ _)]
  · rw [hfile, List.append_assoc, Reader.slice_middle]

/-- A pack that fits 64-bit offsets parses back to its table. -/
theorem parseFooter_packBytes (hsized : OutboardSized host) (hblobs : blobs ≠ [])
    (hcount : blobs.length < 2 ^ 32) (hfits : (packBytes host blobs).length < 2 ^ 64) :
    parseFooter host (packBytes host blobs) = .ok (packTable host blobs) := by
  have hlength : (packBytes host blobs).length = blobs.flatten.length +
      ((blobs.flatMap host.outboard).length +
        ((encodeFooter (packTable host blobs)).length + trailerLen)) := by
    simp only [packBytes, List.length_append, length_encodeTail]
  have hbody : blobs.flatten ++ blobs.flatMap host.outboard ++
      encodeTail host (packTable host blobs) = packBytes host blobs := List.append_assoc _ _ _
  obtain ⟨hhash, hlen, hmagic, hstart, hfooter⟩ := @encodeTail_fields host
    (packTable host blobs) (blobs.flatten ++ blobs.flatMap host.outboard)
  rw [hbody] at hhash hlen hmagic hstart hfooter
  rw [@List.length_append _ blobs.flatten] at hstart hfooter
  have hparsed := parseTable_layout hsized hblobs hcount (by omega)
  have htable : encodeFooter (packTable host blobs) = packMagic ++
      (toLe 4 blobs.length ++ (packTable host blobs).flatMap encodeRow) := by
    simp [encodeFooter, packTable]
  simp only [parseFooter]
  rw [if_neg (by omega), hmagic, if_neg (not_not.mpr rfl), hlen, hhash, Wire.ofLe_toLe (by omega),
    if_neg (by omega), hstart, hfooter, Blake3.ofBytes_toBytes, if_neg (not_not.mpr rfl), htable,
    List.take_left, if_neg (not_not.mpr rfl), List.drop_left, hparsed]

/-! ## The windows of a pack -/

/-- The entry describes the blob: its digest, its window and its tree's window in the file. -/
structure MemberEntry.Describes (host : Host) (file : Bytes) (entry : MemberEntry) (blob : Bytes) :
    Prop where
  hash : entry.hash = host.blake3 blob
  len : entry.len = blob.length
  window : Reader.slice file entry.offset entry.len = blob
  tree : Reader.slice file entry.obaoOffset entry.obaoLen = host.outboard blob

/-- The entries of blobs that lie behind `front`, with their trees behind `between`. -/
theorem deriveTrees_layout_describes (hsized : OutboardSized host) {offset cursor : Nat}
    {front between tail file : Bytes} (hfront : front.length = offset)
    (hcursor : (front ++ (blobs.flatten ++ between)).length = cursor)
    (hfile : file = front ++ (blobs.flatten ++ between) ++
      (blobs.flatMap host.outboard ++ tail)) :
    List.Forall₂ (MemberEntry.Describes host file) (deriveTrees cursor (layout host offset blobs))
      blobs := by
  induction blobs generalizing offset cursor front between with
  | nil => exact .nil
  | cons blob blobs ih =>
    refine .cons ⟨rfl, rfl, ?_, ?_⟩ ?_
    · simp only [hfile, List.flatten_cons, List.append_assoc, ← hfront]
      exact Reader.slice_middle _ _ _
    · simp only [hfile, List.flatMap_cons, List.append_assoc, ← hcursor, ← hsized blob]
      simpa only [List.append_assoc] using
        Reader.slice_middle (front ++ ((blob :: blobs).flatten ++ between))
          (host.outboard blob) (blobs.flatMap host.outboard ++ tail)
    · have hfront' : (front ++ blob).length = offset + blob.length := by
        rw [List.length_append, hfront]
      refine @ih _ _ (front ++ blob) (between ++ host.outboard blob) hfront' ?_ ?_
      · rw [← hcursor, ← hsized blob]
        simp only [List.flatten_cons, List.length_append]
        omega
      · simp only [hfile, List.flatten_cons, List.flatMap_cons, List.append_assoc]

/-- The table of a pack describes its members, in order. -/
theorem packTable_describes (hsized : OutboardSized host) (blobs : List Bytes) :
    List.Forall₂ (MemberEntry.Describes host (packBytes host blobs)) (packTable host blobs)
      blobs := by
  have hfile : packBytes host blobs = [] ++ (blobs.flatten ++ []) ++
      (blobs.flatMap host.outboard ++ encodeTail host (packTable host blobs)) := by
    rw [List.nil_append, List.append_nil]
    rfl
  refine deriveTrees_layout_describes hsized rfl ?_ hfile
  rw [List.nil_append, List.append_nil]

/-- Each entry of a pack's table describes a member. -/
theorem mem_packTable (hsized : OutboardSized host) {entry : MemberEntry}
    (hentry : entry ∈ packTable host blobs) :
    ∃ blob ∈ blobs, entry.Describes host (packBytes host blobs) blob := by
  obtain ⟨ix, hix, rfl⟩ := List.mem_iff_getElem.mp hentry
  have hdescribes := packTable_describes hsized blobs
  have hix' : ix < blobs.length := hdescribes.length_eq ▸ hix
  exact ⟨blobs[ix], List.getElem_mem hix', hdescribes.get hix hix'⟩

theorem map_hash_deriveTrees_layout (offset cursor : Nat) (blobs : List Bytes) :
    (deriveTrees cursor (layout host offset blobs)).map MemberEntry.hash =
      blobs.map host.blake3 := by
  induction blobs generalizing offset cursor with
  | nil => rfl
  | cons blob blobs ih => rw [layout, deriveTrees, List.map_cons, List.map_cons, ih]

theorem map_hash_packTable (blobs : List Bytes) :
    (packTable host blobs).map MemberEntry.hash = blobs.map host.blake3 :=
  map_hash_deriveTrees_layout _ _ _

/-- What a pack's file adds to its members and their trees. -/
theorem length_packBytes (blobs : List Bytes) :
    (packBytes host blobs).length = blobs.flatten.length + (blobs.flatMap host.outboard).length +
      blobs.length * memberRow + (packMagic.length + 4 + trailerLen) := by
  simp only [packBytes, List.length_append, length_encodeTail, encodeFooter, Wire.length_toLe,
    length_flatMap_encodeRow, packTable, length_deriveTrees, length_layout]
  omega

end Datboi.StoreFs
