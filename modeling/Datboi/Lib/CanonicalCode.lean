import Mathlib.Algebra.BigOperators.Group.List.Basic
import Mathlib.Algebra.Group.Even
import Mathlib.Algebra.Order.Ring.Nat
import Mathlib.Data.List.GetD
import Mathlib.Data.List.Induction
import Mathlib.Tactic.Ring

/-!
# Canonical codes, longest first

A canonical code is given by the lengths of its codes, zero for a symbol without one. Codes of
one length are consecutive; those of the greatest length begin at zero, and each shorter length
begins where half of the longer codes end. The codes are prefix-free as long as each length above
one leaves an even number of nodes, and they fit their lengths exactly if the lengths meet
Kraft's inequality.
-/

namespace CanonicalCode

/-- The first code of the length `top - d`. -/
def firstFrom (lengths : List Nat) (top : Nat) : Nat → Nat
  | 0 => 0
  | d + 1 => (firstFrom lengths top d + lengths.count (top - d)) / 2

def first (lengths : List Nat) (top len : Nat) : Nat := firstFrom lengths top (top - len)

/-- The end of the codes of a length, which is the number of nodes at that depth. -/
def nodes (lengths : List Nat) (top len : Nat) : Nat := first lengths top len + lengths.count len

/-- No length above one leaves half a node. -/
def Halves (lengths : List Nat) (top : Nat) : Prop :=
  ∀ len, 1 < len → len ≤ top → nodes lengths top len % 2 = 0

instance (lengths : List Nat) (top : Nat) : Decidable (Halves lengths top) :=
  decidable_of_iff (∀ len < top + 1, 1 < len → nodes lengths top len % 2 = 0)
    ⟨fun h len hpos hle => h len (by omega) hpos, fun h len hlt hpos => h len hpos (by omega)⟩

/-- The code of the symbol at an index. -/
def code (lengths : List Nat) (top i : Nat) : Nat :=
  first lengths top (lengths.getD i 0) + (lengths.take i).count (lengths.getD i 0)

/-- How many of the words of a width begin with some code. -/
def words (lengths : List Nat) (width : Nat) : Nat :=
  ((lengths.filter (0 < ·)).map fun len => 2 ^ (width - len)).sum

variable {lengths : List Nat} {top len i j : Nat}

theorem first_top (lengths : List Nat) (top : Nat) : first lengths top top = 0 := by
  rw [first, Nat.sub_self]
  rfl

theorem first_of_lt (hlen : len < top) :
    first lengths top len = nodes lengths top (len + 1) / 2 := by
  rw [first, show top - len = top - (len + 1) + 1 by omega, firstFrom, nodes, first,
    show top - (top - (len + 1)) = len + 1 by omega]

theorem nodes_double (hhalves : Halves lengths top) (hpos : 0 < len) (hlen : len < top) :
    nodes lengths top (len + 1) = 2 * first lengths top len := by
  have heven := hhalves (len + 1) (by omega) hlen
  rw [first_of_lt hlen]
  omega

/-! ## Prefix-freedom -/

/-- Codes cut to a shorter length lie before the codes of that length. -/
theorem div_lt_first (hhalves : Halves lengths top) {c k : Nat} (hpos : 0 < len)
    (hlen : len + (k + 1) ≤ top) (hc : c < nodes lengths top (len + (k + 1))) :
    c / 2 ^ (k + 1) < first lengths top len := by
  induction k generalizing c len with
  | zero =>
    rw [nodes_double hhalves hpos (by omega)] at hc
    rw [Nat.zero_add, Nat.pow_one]
    omega
  | succ k ih =>
    have hnext := @ih (len + 1) c (by omega) (by omega)
      (by rwa [Nat.add_assoc, Nat.add_comm 1])
    have hdouble := nodes_double hhalves hpos (by omega)
    have hle : first lengths top (len + 1) ≤ nodes lengths top (len + 1) := Nat.le_add_right _ _
    rw [Nat.pow_succ, ← Nat.div_div_eq_div_mul]
    omega

theorem code_lt_nodes (hi : i < lengths.length) :
    code lengths top i < nodes lengths top (lengths.getD i 0) := by
  have hcount : (lengths.take i).count (lengths.getD i 0) < lengths.count (lengths.getD i 0) := by
    have hmem : lengths.getD i 0 ∈ lengths.drop i := by
      rw [List.drop_eq_getElem_cons hi, List.getD_eq_getElem _ _ hi]
      exact List.mem_cons_self
    have hsplit := @List.count_append _ _ (lengths.getD i 0) (lengths.take i) (lengths.drop i)
    rw [List.take_append_drop] at hsplit
    have hpos := List.count_pos_iff.mpr hmem
    omega
  rw [code, nodes]
  omega

theorem code_ge_first : first lengths top (lengths.getD i 0) ≤ code lengths top i :=
  Nat.le_add_right _ _

/-- Codes of one length are consecutive. -/
theorem code_lt_code (hij : i < j) (hj : j < lengths.length)
    (hsame : lengths.getD i 0 = lengths.getD j 0) : code lengths top i < code lengths top j := by
  have hi : i < lengths.length := by omega
  have hcount : (lengths.take i).count (lengths.getD i 0) <
      (lengths.take j).count (lengths.getD i 0) := by
    have hmem : lengths.getD i 0 ∈ (lengths.take j).drop i := by
      have hlt : i < (lengths.take j).length := by
        rw [List.length_take]
        omega
      rw [List.drop_eq_getElem_cons hlt, List.getElem_take, List.getD_eq_getElem _ _ hi]
      exact List.mem_cons_self
    have hsplit := @List.count_append _ _ (lengths.getD i 0) ((lengths.take j).take i)
      ((lengths.take j).drop i)
    rw [List.take_append_drop, List.take_take, Nat.min_eq_left (by omega)] at hsplit
    have hpos := List.count_pos_iff.mpr hmem
    omega
  rw [code, code, ← hsame]
  omega

/-- No code begins with another. -/
theorem code_prefix_free (hhalves : Halves lengths top) (htop : ∀ len ∈ lengths, len ≤ top)
    (hi : i < lengths.length) (hj : j < lengths.length) (hne : i ≠ j)
    (hpos : 0 < lengths.getD i 0) (hle : lengths.getD i 0 ≤ lengths.getD j 0) :
    code lengths top j / 2 ^ (lengths.getD j 0 - lengths.getD i 0) ≠ code lengths top i := by
  have hmem : lengths.getD j 0 ≤ top := by
    rw [List.getD_eq_getElem _ _ hj]
    exact htop _ (List.getElem_mem hj)
  rcases Nat.eq_or_lt_of_le hle with heq | hlt
  · rw [heq, Nat.sub_self, Nat.pow_zero, Nat.div_one]
    rcases Nat.lt_or_gt_of_ne hne with hij | hji
    · exact (code_lt_code hij hj heq).ne'
    · exact (code_lt_code hji hi heq.symm).ne
  · obtain ⟨k, hk⟩ := Nat.exists_eq_add_of_lt hlt
    rw [Nat.add_assoc] at hk
    have hcode := @code_lt_nodes _ top _ hj
    rw [hk] at hcode hmem ⊢
    have hbefore := div_lt_first hhalves hpos hmem hcode
    rw [Nat.add_sub_cancel_left]
    exact (hbefore.trans_le code_ge_first).ne

/-! ## Kraft's inequality -/

/-- The words of a width that begin with codes of some length or more. -/
def wordsFrom (lengths : List Nat) (width len : Nat) : Nat :=
  ((lengths.filter (len ≤ ·)).map fun l => 2 ^ (width - l)).sum

theorem wordsFrom_succ (lengths : List Nat) (width len : Nat) :
    wordsFrom lengths width len =
      wordsFrom lengths width (len + 1) + lengths.count len * 2 ^ (width - len) := by
  induction lengths with
  | nil => simp [wordsFrom]
  | cons l lengths ih =>
    unfold wordsFrom at ih ⊢
    rcases Nat.lt_trichotomy l len with hlt | heq | hgt
    · rw [List.filter_cons_of_neg (by simpa using hlt),
        List.filter_cons_of_neg (by simp; omega), List.count_cons_of_ne (by omega), ih]
    · subst heq
      rw [List.filter_cons_of_pos (by simp), List.filter_cons_of_neg (by simp),
        List.map_cons, List.sum_cons, List.count_cons_self, ih]
      ring
    · rw [List.filter_cons_of_pos (by simp; omega), List.filter_cons_of_pos (by simp; omega),
        List.map_cons, List.sum_cons, List.map_cons, List.sum_cons,
        List.count_cons_of_ne (by omega), ih, Nat.add_assoc]

theorem wordsFrom_past {width : Nat} (hlengths : ∀ l ∈ lengths, l ≤ width) (hlen : width < len) :
    wordsFrom lengths width len = 0 := by
  have hnone : lengths.filter (len ≤ ·) = [] := by
    rw [List.filter_eq_nil_iff]
    intro l hl
    have hle := hlengths l hl
    simp
    omega
  rw [wordsFrom, hnone]
  rfl

theorem nodes_past {width : Nat} (hlengths : ∀ l ∈ lengths, l ≤ width) (hwidth : width < len)
    (hlen : len ≤ top) : nodes lengths top len = 0 := by
  have hnone : ∀ l, width < l → lengths.count l = 0 := fun l hl =>
    List.count_eq_zero.mpr fun hmem => absurd (hlengths l hmem) (by omega)
  obtain ⟨d, rfl⟩ := Nat.exists_eq_add_of_le hlen
  induction d generalizing len with
  | zero => rw [nodes, Nat.add_zero, first_top, hnone len hwidth]
  | succ d ih =>
    have hnext := @ih (len + 1) (by omega) (by omega)
    rw [show len + 1 + d = len + (d + 1) by omega] at hnext
    rw [nodes, first_of_lt (by omega), hnext, hnone len hwidth]

/-- The nodes at a depth count the words below them. -/
theorem nodes_mul_eq_wordsFrom {width : Nat} (hhalves : Halves lengths top)
    (hlengths : ∀ l ∈ lengths, l ≤ width) (htop : width < top) (hpos : 0 < len)
    (hlen : len ≤ width + 1) :
    nodes lengths top len * 2 ^ (width - len) = wordsFrom lengths width len := by
  obtain ⟨d, hd⟩ := Nat.exists_eq_add_of_le hlen
  induction d generalizing len with
  | zero =>
    rw [nodes_past hlengths (by omega) (by omega), wordsFrom_past hlengths (by omega),
      Nat.zero_mul]
  | succ d ih =>
    have hdouble := nodes_double hhalves hpos (show len < top by omega)
    by_cases hlast : len = width
    · have hzero := @nodes_past _ top _ _ hlengths (show width < len + 1 by omega) (by omega)
      rw [wordsFrom_succ, wordsFrom_past hlengths (by omega), Nat.zero_add, nodes]
      have hfirst : first lengths top len = 0 := by omega
      rw [hfirst, Nat.zero_add]
    · have hnext := @ih (len + 1) (by omega) (by omega) (by omega)
      rw [wordsFrom_succ, ← hnext, hdouble, nodes,
        show width - len = width - (len + 1) + 1 by omega, Nat.pow_succ]
      ring

theorem wordsFrom_one (lengths : List Nat) (width : Nat) :
    wordsFrom lengths width 1 = words lengths width := rfl

/-- Kraft's inequality bounds the nodes at depth one. -/
theorem nodes_one_le_iff {width : Nat} (hhalves : Halves lengths top)
    (hlengths : ∀ l ∈ lengths, l ≤ width) (hwidth : 0 < width) (htop : width < top) :
    nodes lengths top 1 ≤ 2 ↔ words lengths width ≤ 2 ^ width := by
  have hcount := nodes_mul_eq_wordsFrom hhalves hlengths htop Nat.one_pos (by omega)
  rw [wordsFrom_one] at hcount
  obtain ⟨less, rfl⟩ := Nat.exists_eq_add_of_lt hwidth
  rw [Nat.zero_add] at hcount ⊢
  rw [Nat.add_sub_cancel] at hcount
  rw [← hcount, Nat.pow_succ, Nat.mul_comm (2 ^ less)]
  exact (Nat.mul_le_mul_right_iff (Nat.two_pow_pos less)).symm

/-- Codes fit their lengths if the nodes at depth one do. -/
theorem nodes_le_pow (hhalves : Halves lengths top) (hone : nodes lengths top 1 ≤ 2)
    (hpos : 0 < len) (hlen : len ≤ top) : nodes lengths top len ≤ 2 ^ len := by
  induction len with
  | zero => omega
  | succ len ih =>
    by_cases hzero : len = 0
    · subst hzero
      exact hone
    · have hprev := ih (by omega) (by omega)
      have hdouble := nodes_double hhalves (show 0 < len by omega) (by omega)
      have hle : first lengths top len ≤ nodes lengths top len := Nat.le_add_right _ _
      rw [Nat.pow_succ]
      omega

/-- There are no more nodes at a depth than codes that reach it. -/
theorem nodes_le_length (hlen : len ≤ top) : nodes lengths top len ≤ lengths.length := by
  have hreach : nodes lengths top len ≤ (lengths.filter (len ≤ ·)).length := by
    obtain ⟨d, rfl⟩ := Nat.exists_eq_add_of_le hlen
    have hsplit : ∀ len, (lengths.filter (len ≤ ·)).length =
        (lengths.filter (len + 1 ≤ ·)).length + lengths.count len := by
      intro len
      have hwords := wordsFrom_succ lengths 0 len
      have hones : ∀ m, wordsFrom lengths 0 m = (lengths.filter (m ≤ ·)).length := by
        intro m
        rw [wordsFrom]
        simp
      rw [hones, hones, Nat.zero_sub, Nat.pow_zero, Nat.mul_one] at hwords
      exact hwords
    induction d generalizing len with
    | zero =>
      rw [nodes, Nat.add_zero, first_top, hsplit]
      omega
    | succ d ih =>
      have hnext := @ih (len + 1) (by omega)
      rw [show len + 1 + d = len + (d + 1) by omega] at hnext
      rw [nodes, first_of_lt (by omega), hsplit]
      omega
  exact hreach.trans (List.length_filter_le _ _)

/-- The last symbol of a length. -/
theorem exists_last (hcount : 0 < lengths.count len) :
    ∃ i < lengths.length, lengths.getD i 0 = len ∧
      (lengths.take i).count len + 1 = lengths.count len := by
  induction lengths using List.reverseRecOn with
  | nil => simp at hcount
  | append_singleton lengths l ih =>
    by_cases hsame : l = len
    · refine ⟨lengths.length, by simp, by simp [hsame], ?_⟩
      rw [List.take_left, List.count_append, hsame, List.count_singleton_self]
    · have hless : (lengths ++ [l]).count len = lengths.count len := by
        rw [List.count_append, List.count_singleton, if_neg (by simpa using hsame), Nat.add_zero]
      rw [hless] at hcount ⊢
      obtain ⟨i, hi, hget, htake⟩ := ih hcount
      refine ⟨i, by simp; omega, ?_, ?_⟩
      · rw [List.getD_append _ _ _ _ hi, hget]
      · rw [List.take_append_of_le_length (by omega), htake]

/-- If all codes fit their lengths, so do the nodes at every depth. -/
theorem nodes_le_of_codes
    (hcodes : ∀ i < lengths.length, 0 < lengths.getD i 0 →
      code lengths top i < 2 ^ lengths.getD i 0)
    (hpos : 0 < len) (hlen : len ≤ top) : nodes lengths top len ≤ 2 ^ len := by
  obtain ⟨d, rfl⟩ := Nat.exists_eq_add_of_le hlen
  induction d generalizing len with
  | zero =>
    by_cases hcount : lengths.count len = 0
    · rw [nodes, Nat.add_zero, first_top, hcount]
      exact Nat.zero_le _
    · obtain ⟨i, hi, hget, htake⟩ := exists_last (Nat.pos_of_ne_zero hcount)
      have hcode := hcodes i hi (by omega)
      rw [code, hget] at hcode
      rw [nodes]
      omega
  | succ d ih =>
    by_cases hcount : lengths.count len = 0
    · have hnext := @ih (len + 1) (by omega)
        (by rwa [show len + 1 + d = len + (d + 1) by omega]) (by omega)
      rw [show len + 1 + d = len + (d + 1) by omega, Nat.pow_succ] at hnext
      rw [nodes, first_of_lt (by omega), hcount]
      omega
    · obtain ⟨i, hi, hget, htake⟩ := exists_last (Nat.pos_of_ne_zero hcount)
      have hcode := hcodes i hi (by omega)
      rw [code, hget] at hcode
      rw [nodes]
      omega

end CanonicalCode
