import Mathlib.Data.List.Induction
import Mathlib.Data.List.TakeWhile

namespace Prpc.Lib

abbrev Text := List Char

def child (p k : Text) : Text := p ++ '/' :: k

def keyOf (p : Text) : Text := (p.reverse.takeWhile (· ≠ '/')).reverse

def parentOf (p : Text) : Text := if '/' ∈ p then (p.reverse.dropWhile (· ≠ '/')).tail.reverse else p

theorem slash_notMem_keyOf (p : Text) : '/' ∉ keyOf p := by
  intro mem
  have h := List.mem_takeWhile_imp (List.mem_reverse.1 mem)
  simp at h

theorem slash_mem_child (p k : Text) : '/' ∈ child p k := by simp [child]

theorem keyOf_child {p k : Text} (h : '/' ∉ k) : keyOf (child p k) = k := by
  have notMem : ∀ c ∈ k.reverse, (decide (c ≠ '/')) = true := by
    intro c mem
    have ne : c ≠ '/' := fun eq => h (eq ▸ List.mem_reverse.1 mem)
    simpa using ne
  rw [keyOf, child, List.reverse_append, List.reverse_cons, List.append_assoc,
    List.takeWhile_append_of_pos notMem]
  simp

theorem parentOf_child {p k : Text} (h : '/' ∉ k) : parentOf (child p k) = p := by
  have notMem : ∀ c ∈ k.reverse, (decide (c ≠ '/')) = true := by
    intro c mem
    have ne : c ≠ '/' := fun eq => h (eq ▸ List.mem_reverse.1 mem)
    simpa using ne
  rw [parentOf, if_pos (slash_mem_child p k), child, List.reverse_append, List.reverse_cons,
    List.append_assoc, List.dropWhile_append_of_pos notMem]
  simp

theorem child_parentOf_keyOf {p : Text} (h : '/' ∈ p) : child (parentOf p) (keyOf p) = p := by
  obtain ⟨q, k, rfl, notMem⟩ : ∃ q k, p = child q k ∧ '/' ∉ k := by
    induction p with
    | nil => simp at h
    | cons c p ih =>
      by_cases rest : '/' ∈ p
      · obtain ⟨q, k, rfl, notMem⟩ := ih rest
        exact ⟨c :: q, k, rfl, notMem⟩
      · have slash : c = '/' := by
          rcases List.mem_cons.1 h with eq | mem
          · exact eq.symm
          · exact absurd mem rest
        exact ⟨[], p, by rw [slash]; rfl, rest⟩
  rw [parentOf_child notMem, keyOf_child notMem]

theorem child_inj {p q k l : Text} (hk : '/' ∉ k) (hl : '/' ∉ l) : child p k = child q l ↔ p = q ∧ k = l := by
  constructor
  · intro eq
    refine ⟨?_, ?_⟩
    · rw [← parentOf_child (p := p) hk, eq, parentOf_child hl]
    · rw [← keyOf_child (p := p) hk, eq, keyOf_child hl]
  · rintro ⟨rfl, rfl⟩
    rfl

theorem child_right_inj {p k l : Text} : child p k = child p l ↔ k = l := by
  simp [child]

theorem child_ne_self (p k : Text) : child p k ≠ p := by
  intro eq
  have len := congrArg List.length eq
  simp [child] at len

theorem child_assoc (p k l : Text) : child (child p k) l = child p (child k l) := by
  simp [child]

def Below (base p : Text) : Prop := p = base ∨ ∃ r, p = child base r

theorem Below.refl (p : Text) : Below p p := .inl rfl

theorem Below.child {base p : Text} (below : Below base p) (k : Text) : Below base (child p k) := by
  rcases below with rfl | ⟨r, rfl⟩
  · exact .inr ⟨k, rfl⟩
  · exact .inr ⟨Lib.child r k, child_assoc base r k⟩

theorem Below.of_child {p q k : Text} (below : Below (Lib.child p k) q) : Below p q := by
  rcases below with rfl | ⟨r, rfl⟩
  · exact .inr ⟨k, rfl⟩
  · exact .inr ⟨Lib.child k r, child_assoc p k r⟩

theorem below_child_iff {base p k : Text} (hk : '/' ∉ k) :
    Below base (child p k) ↔ child p k = base ∨ Below base p := by
  constructor
  · rintro (eq | ⟨r, eq⟩)
    · exact .inl eq
    · right
      by_cases slash : '/' ∈ r
      · have split := child_parentOf_keyOf slash
        rw [← split, ← child_assoc, child_inj hk (slash_notMem_keyOf r)] at eq
        exact .inr ⟨parentOf r, eq.1⟩
      · rw [child_inj hk slash] at eq
        exact .inl eq.1
  · rintro (eq | below)
    · exact .inl eq
    · exact below.child k

theorem below_child_unique {base d d' p : Text} (hd : '/' ∉ d) (hd' : '/' ∉ d')
    (below : Below (child base d) p) (below' : Below (child base d') p) : d = d' := by
  have first : ∀ {d : Text}, '/' ∉ d → Below (child base d) p →
      ∃ x, p = child base x ∧ x.takeWhile (· ≠ '/') = d := by
    intro d hd below
    have all : ∀ c ∈ d, (decide (c ≠ '/')) = true := by
      intro c mem
      simpa using fun eq : c = '/' => hd (eq ▸ mem)
    rcases below with rfl | ⟨r, rfl⟩
    · exact ⟨d, rfl, List.takeWhile_eq_self_iff.2 all⟩
    · refine ⟨child d r, child_assoc base d r, ?_⟩
      rw [child, List.takeWhile_append_of_pos all]
      simp
  obtain ⟨x, rfl, rfl⟩ := first hd below
  obtain ⟨y, eq, rfl⟩ := first hd' below'
  rw [child_right_inj.1 eq]

theorem length_le_foldl_child (p : Text) (segs : List Text) :
    p.length + segs.length ≤ (segs.foldl child p).length := by
  induction segs generalizing p with
  | nil => exact le_refl _
  | cons seg segs ih =>
    have longer := ih (child p seg)
    have len : (child p seg).length = p.length + seg.length + 1 := by
      simp [child, Nat.add_assoc]
    rw [List.foldl_cons, List.length_cons]
    omega

theorem child_foldl_child_ne (p k : Text) (segs : List Text) : child (segs.foldl child p) k ≠ p := by
  intro eq
  have longer := length_le_foldl_child p segs
  have len := congrArg List.length eq
  simp [child] at len
  omega

theorem foldl_child_inj {p : Text} {l l' : List Text} (hl : ∀ seg ∈ l, '/' ∉ seg)
    (hl' : ∀ seg ∈ l', '/' ∉ seg) : l.foldl child p = l'.foldl child p ↔ l = l' := by
  refine ⟨fun eq => ?_, fun eq => by rw [eq]⟩
  induction l using List.reverseRecOn generalizing l' with
  | nil =>
    cases l' using List.reverseRecOn with
    | nil => rfl
    | append_singleton l' k =>
      rw [List.foldl_append] at eq
      exact absurd eq.symm (child_foldl_child_ne p k l')
  | append_singleton l k ih =>
    cases l' using List.reverseRecOn with
    | nil =>
      rw [List.foldl_append] at eq
      exact absurd eq (child_foldl_child_ne p k l)
    | append_singleton l' k' =>
      simp only [List.forall_mem_append, List.forall_mem_singleton] at hl hl'
      simp only [List.foldl_append, List.foldl_cons, List.foldl_nil] at eq
      rw [child_inj hl.2 hl'.2] at eq
      rw [ih hl.1 hl'.1 eq.1, eq.2]

theorem below_foldl_child {p : Text} {l l' : List Text} (hl : ∀ seg ∈ l, '/' ∉ seg)
    (hl' : ∀ seg ∈ l', '/' ∉ seg) (below : Below (l.foldl child p) (l'.foldl child p)) :
    l <+: l' := by
  induction l' using List.reverseRecOn with
  | nil =>
    rcases below with eq | ⟨r, eq⟩
    · have same := (foldl_child_inj hl hl').1 eq.symm
      exact same ▸ List.prefix_refl _
    · exact absurd eq.symm (child_foldl_child_ne p r l)
  | append_singleton l' k ih =>
    have split : (l' ++ [k]).foldl child p = child (l'.foldl child p) k := by simp
    have parts := hl'
    simp only [List.forall_mem_append, List.forall_mem_singleton] at parts
    rw [split, below_child_iff parts.2] at below
    rcases below with eq | below
    · have same := (foldl_child_inj hl hl').1 (eq.symm.trans split.symm)
      exact same ▸ List.prefix_refl _
    · exact (ih parts.1 below).trans (List.prefix_append _ _)

end Prpc.Lib
