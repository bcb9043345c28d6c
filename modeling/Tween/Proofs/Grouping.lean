import Mathlib.Data.List.Sort

namespace Tween

section Sorting

variable {α : Type} (key : α → Nat)

theorem eq_of_filter_key {l₁ l₂ : List α} (h₁ : l₁.Pairwise (key · ≤ key ·))
    (h₂ : l₂.Pairwise (key · ≤ key ·))
    (h : ∀ n, l₁.filter (key · = n) = l₂.filter (key · = n)) : l₁ = l₂ := by
  induction l₁ generalizing l₂ with
  | nil =>
    cases l₂ with
    | nil => rfl
    | cons b rest => simpa using h (key b)
  | cons a front ih =>
    have hmem : ∀ x, x ∈ a :: front ↔ x ∈ l₂ := by
      intro x
      simpa using congrArg (x ∈ ·) (h (key x))
    cases l₂ with
    | nil => simpa using hmem a
    | cons b rest =>
      rw [List.pairwise_cons] at h₁ h₂
      -- Each head is a member of the other list, so neither key is below the other.
      have hab : key a ≤ key b := by
        rcases List.mem_cons.mp ((hmem b).mpr List.mem_cons_self) with rfl | hb
        · exact Nat.le_refl _
        · exact h₁.1 b hb
      have hba : key b ≤ key a := by
        rcases List.mem_cons.mp ((hmem a).mp List.mem_cons_self) with rfl | ha
        · exact Nat.le_refl _
        · exact h₂.1 a ha
      have hkey : key a = key b := Nat.le_antisymm hab hba
      have hhead : a = b := by
        have := h (key a)
        simp only [List.filter_cons, hkey, decide_true, if_true] at this
        exact (List.cons.inj this).1
      subst hhead
      rw [ih h₁.2 h₂.2 fun n => ?_]
      have := h n
      simp only [List.filter_cons] at this
      split at this
      · exact (List.cons.inj this).2
      · exact this

theorem filter_key_insertionSort (l : List α) (n : Nat) :
    (l.insertionSort (key · ≤ key ·)).filter (key · = n) = l.filter (key · = n) := by
  have hsorted : (l.filter (key · = n)).Pairwise (key · ≤ key ·) := by
    apply List.pairwise_of_forall_mem_list
    intro a ha b hb
    have ha := (List.mem_filter.mp ha).2
    have hb := (List.mem_filter.mp hb).2
    rw [of_decide_eq_true ha, of_decide_eq_true hb]
  -- What is sorted already survives insertion as a sublist, and no longer one has the same key.
  have hsub := (List.sublist_insertionSort hsorted List.filter_sublist).filter (key · = n)
  rw [List.filter_filter] at hsub
  simp only [Bool.and_self] at hsub
  refine (hsub.eq_of_length ?_).symm
  exact ((List.perm_insertionSort _ l).filter _).length_eq.symm

end Sorting

section Classes

variable {α β : Type} [DecidableEq β]

theorem idxOf_lt_of_filter {p : β → Bool} {x y : β} (hx : p x = true) (hy : p y = true)
    {l : List β} (h : (l.filter p).idxOf x < (l.filter p).idxOf y) : l.idxOf x < l.idxOf y := by
  induction l with
  | nil => exact absurd h (Nat.lt_irrefl _)
  | cons c rest ih =>
    by_cases hc : p c = true
    · rw [List.filter_cons_of_pos hc] at h
      by_cases hcy : c = y
      · rw [List.idxOf_cons_eq _ hcy] at h
        exact absurd h (Nat.not_lt_zero _)
      · rw [List.idxOf_cons_ne _ hcy] at h ⊢
        by_cases hcx : c = x
        · rw [List.idxOf_cons_eq _ hcx]
          exact Nat.succ_pos _
        · rw [List.idxOf_cons_ne _ hcx] at h ⊢
          exact Nat.succ_lt_succ (ih (Nat.lt_of_succ_lt_succ h))
    · rw [List.filter_cons_of_neg hc] at h
      have hcx : c ≠ x := fun e => hc (e ▸ hx)
      have hcy : c ≠ y := fun e => hc (e ▸ hy)
      rw [List.idxOf_cons_ne _ hcx, List.idxOf_cons_ne _ hcy]
      exact Nat.succ_lt_succ (ih h)

theorem pairwise_eraseDups :
    ∀ l : List β, l.eraseDups.Pairwise fun x y => l.idxOf x < l.idxOf y
  | [] => .nil
  | a :: rest => by
    have ih := pairwise_eraseDups (rest.filter fun b => !b == a)
    have hkept : ∀ x ∈ (rest.filter fun b => !b == a).eraseDups, (!x == a) = true := by
      intro x hx
      exact (List.mem_filter.mp (List.mem_eraseDups.mp hx)).2
    have hne : ∀ x ∈ (rest.filter fun b => !b == a).eraseDups, a ≠ x := by
      intro x hx e
      have := hkept x hx
      rw [e, BEq.rfl] at this
      cases this
    rw [List.eraseDups_cons, List.pairwise_cons]
    refine ⟨fun x hx => ?_, ih.imp_of_mem fun {x y} hx hy h => ?_⟩
    · rw [List.idxOf_cons_self, List.idxOf_cons_ne _ (hne x hx)]
      exact Nat.succ_pos _
    · rw [List.idxOf_cons_ne _ (hne x hx), List.idxOf_cons_ne _ (hne y hy)]
      exact Nat.succ_lt_succ
        (idxOf_lt_of_filter (p := fun b => !b == a) (hkept x hx) (hkept y hy) h)
termination_by l => l.length
decreasing_by exact Nat.lt_succ_of_le (List.length_filter_le _ _)

theorem nodup_eraseDups (l : List β) : l.eraseDups.Nodup := by
  apply (pairwise_eraseDups l).imp
  intro x y h e
  rw [e] at h
  exact Nat.lt_irrefl _ h

theorem eraseDups_filter (p : β → Bool) :
    ∀ l : List β, (l.filter p).eraseDups = l.eraseDups.filter p
  | [] => rfl
  | a :: rest => by
    have ih := eraseDups_filter p (rest.filter fun b => !b == a)
    have hcomm : (rest.filter p).filter (fun b => !b == a) =
        (rest.filter fun b => !b == a).filter p := by
      simp only [List.filter_filter, Bool.and_comm]
    rw [List.eraseDups_cons]
    by_cases ha : p a = true
    · rw [List.filter_cons_of_pos ha, List.filter_cons_of_pos ha, List.eraseDups_cons, hcomm, ih]
    · -- Nothing that is kept is a duplicate of `a`.
      have hnone : (rest.filter p).filter (fun b => !b == a) = rest.filter p := by
        apply List.filter_eq_self.mpr
        intro b hb
        have hp := (List.mem_filter.mp hb).2
        simp only [Bool.not_eq_true', beq_eq_false_iff_ne]
        exact fun e => ha (e ▸ hp)
      rw [List.filter_cons_of_neg ha, List.filter_cons_of_neg ha, ← ih, ← hcomm, hnone]
termination_by l => l.length
decreasing_by exact Nat.lt_succ_of_le (List.length_filter_le _ _)

theorem filter_eq_of_classes {γ : Type} [DecidableEq γ] {g : α → γ} {f : α → β} {l l' : List α}
    (hclass : ∀ a ∈ l, ∀ b, g a = g b ↔ f a = f b) (hmem : ∀ a ∈ l', a ∈ l)
    (h : ∀ a ∈ l, l'.filter (g · = g a) = l.filter (g · = g a)) (d : β) :
    l'.filter (f · = d) = l.filter (f · = d) := by
  by_cases hd : ∃ a ∈ l, f a = d
  · obtain ⟨a, ha, rfl⟩ := hd
    have hsame : ∀ b ∈ l, decide (f b = f a) = decide (g b = g a) := by
      intro b hb
      rw [decide_eq_decide, hclass b hb]
    rw [List.filter_congr hsame, List.filter_congr fun b hb => hsame b (hmem b hb)]
    exact h a ha
  · have hnone : ∀ b ∈ l, ¬decide (f b = d) = true := by
      intro b hb hbd
      exact hd ⟨b, hb, of_decide_eq_true hbd⟩
    rw [List.filter_eq_nil_iff.mpr hnone,
      List.filter_eq_nil_iff.mpr fun b hb => hnone b (hmem b hb)]

variable (f : α → β) (l : List α)

def firstOf (a : α) : Nat :=
  (l.map f).idxOf (f a)

/-- The list in the order in which its classes first occur. -/
def byFirst : List α :=
  l.insertionSort (firstOf f l · ≤ firstOf f l ·)

theorem firstOf_eq_iff {a b : α} (ha : a ∈ l) : firstOf f l a = firstOf f l b ↔ f a = f b :=
  List.idxOf_inj (List.mem_map_of_mem ha)

theorem filter_flatMap_class {ds : List β} (hds : ds.Nodup) {d : β} (hd : d ∈ ds) :
    (ds.flatMap fun q => l.filter (f · = q)).filter (f · = d) = l.filter (f · = d) := by
  have hother : ∀ q, q ≠ d → (l.filter (f · = q)).filter (f · = d) = [] := by
    intro q hq
    rw [List.filter_filter, List.filter_eq_nil_iff]
    intro a _
    simp only [Bool.and_eq_true, decide_eq_true_eq]
    rintro ⟨hd, hq'⟩
    exact hq (hq'.symm.trans hd)
  induction ds with
  | nil => cases hd
  | cons q rest ih =>
    rw [List.flatMap_cons, List.filter_append]
    rw [List.nodup_cons] at hds
    rcases List.mem_cons.mp hd with rfl | hd
    · rw [List.filter_filter, List.filter_flatMap, List.flatMap_eq_nil_iff.mpr, List.append_nil]
      · simp only [Bool.and_self]
      · intro q hq
        exact hother q fun e => hds.1 (e ▸ hq)
    · rw [hother q fun e => hds.1 (e ▸ hd), ih hds.2 hd]
      rfl

theorem flatMap_classes :
    ((l.map f).eraseDups.flatMap fun d => l.filter (f · = d)) = byFirst f l := by
  have hmem : ∀ a ∈ (l.map f).eraseDups.flatMap (fun d => l.filter (f · = d)), a ∈ l := by
    intro a ha
    obtain ⟨d, -, ha⟩ := List.mem_flatMap.mp ha
    exact (List.mem_filter.mp ha).1
  have hnodup := nodup_eraseDups (l.map f)
  apply eq_of_filter_key (firstOf f l)
  · rw [List.pairwise_flatMap]
    refine ⟨fun d _ => ?_, (pairwise_eraseDups (l.map f)).imp fun {p q} h a ha b hb => ?_⟩
    · apply List.pairwise_of_forall_mem_list
      intro a ha b hb
      have ha := of_decide_eq_true (List.mem_filter.mp ha).2
      have hb := of_decide_eq_true (List.mem_filter.mp hb).2
      rw [firstOf, firstOf, ha, hb]
    · have ha := of_decide_eq_true (List.mem_filter.mp ha).2
      have hb := of_decide_eq_true (List.mem_filter.mp hb).2
      rw [firstOf, firstOf, ha, hb]
      exact Nat.le_of_lt h
  · exact List.pairwise_insertionSort _ l
  · intro n
    rw [byFirst, filter_key_insertionSort]
    apply filter_eq_of_classes (fun a ha b => (firstOf_eq_iff f l ha).symm) hmem
    intro a ha
    exact filter_flatMap_class f l hnodup (List.mem_eraseDups.mpr (List.mem_map_of_mem ha))

theorem byFirst_filter (p : β → Bool) :
    byFirst f (l.filter fun a => p (f a)) = (byFirst f l).filter fun a => p (f a) := by
  have hkeys : (l.filter fun a => p (f a)).map f = (l.map f).filter p := by
    rw [List.filter_map]
    rfl
  have hcomm : ∀ d, (l.filter (f · = d)).filter (fun a => p (f a)) =
      (l.filter fun a => p (f a)).filter (f · = d) := by
    intro d
    simp only [List.filter_filter, Bool.and_comm]
  have hnone : ∀ d, ¬p d = true → (l.filter fun a => p (f a)).filter (f · = d) = [] := by
    intro d hd
    rw [← hcomm, List.filter_eq_nil_iff]
    intro a ha
    rwa [of_decide_eq_true (List.mem_filter.mp ha).2]
  rw [← flatMap_classes, ← flatMap_classes, hkeys, eraseDups_filter, List.filter_flatMap]
  simp only [hcomm]
  generalize (l.map f).eraseDups = ds
  induction ds with
  | nil => rfl
  | cons d rest ih =>
    rw [List.flatMap_cons, ← ih]
    by_cases hd : p d = true
    · rw [List.filter_cons_of_pos hd, List.flatMap_cons]
    · rw [List.filter_cons_of_neg hd, hnone d hd, List.nil_append]

theorem byFirst_congr {f' : α → β} (h : ∀ a ∈ l, f' a = f a) : byFirst f' l = byFirst f l := by
  rw [← flatMap_classes, ← flatMap_classes, List.map_congr_left h]
  apply List.flatMap_congr
  intro d _
  apply List.filter_congr
  intro a ha
  rw [h a ha]

theorem perm_byFirst : (byFirst f l).Perm l :=
  List.perm_insertionSort _ l

end Classes

section Reaching

variable {α : Type} (p : α → Bool)

def throughFirst (l : List α) : List α :=
  l.take (l.findIdx p + 1)

theorem throughFirst_cons (a : α) (l : List α) :
    throughFirst p (a :: l) = if p a then [a] else a :: throughFirst p l := by
  unfold throughFirst
  cases h : p a <;> simp [List.findIdx_cons, h]

theorem throughFirst_append {front : List α} (hfront : ∀ a ∈ front, p a = false) (l : List α) :
    throughFirst p (front ++ l) = front ++ throughFirst p l := by
  induction front with
  | nil => rfl
  | cons a front ih =>
    rw [List.forall_mem_cons] at hfront
    rw [List.cons_append, throughFirst_cons, hfront.1, ih hfront.2]
    rfl

end Reaching

theorem not_mem_singleton_of_mem {α : Type} {l : List α} {a : α} (ha : a ∉ l) :
    ∀ b ∈ l, b ∉ [a] := by
  intro b hb h
  rw [List.mem_singleton.mp h] at hb
  exact ha hb

/-- Taking the first member of a class off a list takes it off the class, and off nothing else. -/
theorem erase_head_class {α : Type} [DecidableEq α] {p : α → Bool} {l : List α} {a : α}
    {rest : List α} (h : l.filter p = a :: rest) :
    a ∈ l ∧ (l.erase a).filter p = rest ∧ (l.erase a).filter (!p ·) = l.filter (!p ·) := by
  have ha : a ∈ l.filter p := h ▸ List.mem_cons_self
  obtain ⟨hmem, hp⟩ := List.mem_filter.mp ha
  refine ⟨hmem, ?_, ?_⟩
  · rw [← List.erase_filter, h, List.erase_cons_head]
  · rw [← List.erase_filter, List.erase_of_not_mem]
    intro hn
    have hn := (List.mem_filter.mp hn).2
    rw [hp] at hn
    cases hn

end Tween
