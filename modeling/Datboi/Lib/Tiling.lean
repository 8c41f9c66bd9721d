import Datboi.Lib.Reader

/-!
# Spans that tile a list

A list is described by spans, each of which stands for some items once it is read in a
context: a table of pieces, an auxiliary stream. A writer lays spans down from the front
and keeps a cursor; the spans so far stand for what lies before it. The context may grow
meanwhile, as long as spans keep their meaning.
-/

namespace Tiling

open Reader (slice)

variable {C R ρ α : Type*} (den : C → R → Option (List α))

/-- What spans stand for together, if each of them stands for something. -/
def render (c : C) : List R → Option (List α)
  | [] => some []
  | span :: rest => (den c span).bind fun head => (render c rest).map (head ++ ·)

variable {den} {c c' : C}

theorem render_cons_eq_some {span : R} {rest : List R} {out : List α} :
    render den c (span :: rest) = some out ↔
      ∃ head tail, den c span = some head ∧ render den c rest = some tail ∧
        out = head ++ tail := by
  simp only [render, Option.bind_eq_some_iff, Option.map_eq_some_iff]
  constructor
  · rintro ⟨head, hhead, tail, htail, rfl⟩
    exact ⟨head, tail, hhead, htail, rfl⟩
  · rintro ⟨head, tail, hhead, htail, rfl⟩
    exact ⟨head, hhead, tail, htail, rfl⟩

theorem render_append {first second : List R} {x y : List α} (hx : render den c first = some x)
    (hy : render den c second = some y) : render den c (first ++ second) = some (x ++ y) := by
  induction first generalizing x with
  | nil =>
    cases hx
    exact hy
  | cons span rest ih =>
    obtain ⟨head, tail, hhead, htail, rfl⟩ := render_cons_eq_some.mp hx
    exact render_cons_eq_some.mpr ⟨head, tail ++ y, hhead, ih htail, List.append_assoc ..⟩

theorem render_mono (hgrow : ∀ span x, den c span = some x → den c' span = some x)
    {spans : List R} {out : List α} (hout : render den c spans = some out) :
    render den c' spans = some out := by
  induction spans generalizing out with
  | nil => exact hout
  | cons span rest ih =>
    obtain ⟨head, tail, hhead, htail, rfl⟩ := render_cons_eq_some.mp hout
    exact render_cons_eq_some.mpr ⟨head, tail, hgrow _ _ hhead, ih htail, rfl⟩

/-! ## Behind a cursor -/

variable (den) in
/-- The spans stand for what lies before the cursor. -/
structure Covers (c : C) (whole : List α) (spans : List R) (cursor : Nat) : Prop where
  within : cursor ≤ whole.length
  rendered : render den c spans = some (slice whole 0 cursor)

namespace Covers

variable {whole : List α} {spans : List R} {cursor : Nat}

theorem nil : Covers den c whole [] 0 where
  within := Nat.zero_le _
  rendered := by rw [Reader.slice_zero_right]; rfl

section

variable (hcovers : Covers den c whole spans cursor)

include hcovers

theorem mono (hgrow : ∀ span x, den c span = some x → den c' span = some x) :
    Covers den c' whole spans cursor where
  within := hcovers.within
  rendered := render_mono hgrow hcovers.rendered

/-- Lay down the span that stands for the next `count` items. -/
theorem push {span : R} {count : Nat} (hwithin : cursor + count ≤ whole.length)
    (hspan : den c span = some (slice whole cursor count)) :
    Covers den c whole (spans ++ [span]) (cursor + count) where
  within := hwithin
  rendered := by
    have hlast : render den c [span] = some (slice whole cursor count) := by
      simp [render, hspan]
    rw [render_append hcovers.rendered hlast]
    have hjoin := Reader.slice_append_slice whole 0 cursor count
    rw [Nat.zero_add] at hjoin
    rw [hjoin]

/-- Spans up to the end tile the whole list. -/
theorem full (hend : cursor = whole.length) : render den c spans = some whole := by
  rw [hcovers.rendered, hend, Reader.slice_zero_length]

end

end Covers

/-! ## Windows back to back -/

/-- Windows, each an offset and a length, that lie back to back from `start` to `stop`. -/
def BackToBack : Nat → List (Nat × Nat) → Nat → Prop
  | start, [], stop => start = stop
  | start, window :: rest, stop => window.1 = start ∧ BackToBack (start + window.2) rest stop

namespace BackToBack

variable {start stop : Nat} {windows : List (Nat × Nat)}

theorem le (hwindows : BackToBack start windows stop) : start ≤ stop := by
  induction windows generalizing start with
  | nil => exact Nat.le_of_eq hwindows
  | cons window rest ih =>
    have hrest := ih hwindows.2
    omega

theorem append_iff {more : List (Nat × Nat)} : BackToBack start (windows ++ more) stop ↔
    ∃ middle, BackToBack start windows middle ∧ BackToBack middle more stop := by
  induction windows generalizing start with
  | nil =>
    constructor
    · intro hmore
      exact ⟨start, rfl, hmore⟩
    · rintro ⟨middle, hstart, hmore⟩
      cases hstart
      exact hmore
  | cons window rest ih =>
    rw [List.cons_append, BackToBack, ih]
    constructor
    · rintro ⟨hwindow, middle, hrest, hmore⟩
      exact ⟨middle, ⟨hwindow, hrest⟩, hmore⟩
    · rintro ⟨middle, ⟨hwindow, hrest⟩, hmore⟩
      exact ⟨hwindow, middle, hrest, hmore⟩

section

variable (hwindows : BackToBack start windows stop)

include hwindows

/-- The windows from some point on. -/
theorem drop (n : Nat) : ∃ middle, BackToBack middle (windows.drop n) stop := by
  rw [← List.take_append_drop n windows, append_iff] at hwindows
  obtain ⟨middle, -, hrest⟩ := hwindows
  exact ⟨middle, hrest⟩

theorem bounds {window : Nat × Nat} (hmem : window ∈ windows) :
    start ≤ window.1 ∧ window.1 + window.2 ≤ stop := by
  induction windows generalizing start with
  | nil => cases hmem
  | cons first rest ih =>
    obtain ⟨hfirst, hrest⟩ := hwindows
    rcases List.mem_cons.mp hmem with rfl | hmem
    · have hle := hrest.le
      omega
    · have hbounds := ih hrest hmem
      omega

/-- No window reaches into a later one. -/
theorem disjoint : windows.Pairwise fun a b => a.1 + a.2 ≤ b.1 := by
  induction windows generalizing start with
  | nil => exact .nil
  | cons first rest ih =>
    obtain ⟨hfirst, hrest⟩ := hwindows
    refine .cons (fun window hmem => ?_) (ih hrest)
    have hbounds := hrest.bounds hmem
    omega

/-- Read one after the other, the windows give the stretch that they tile. -/
theorem flatMap_slice (items : List α) :
    (windows.flatMap fun window => slice items window.1 window.2) =
      slice items start (stop - start) := by
  induction windows generalizing start with
  | nil =>
    cases hwindows
    rw [Nat.sub_self, Reader.slice_zero_right]
    rfl
  | cons window rest ih =>
    obtain ⟨hfirst, hrest⟩ := hwindows
    have hle := hrest.le
    rw [List.flatMap_cons, ih hrest, hfirst, Reader.slice_append_slice]
    congr 1
    omega

end

end BackToBack

end Tiling
