import Tween.Proofs.Timing

namespace Tween

variable {κ : Type}

/-- An operation of a run, with the world it finds. -/
structure Call (κ : Type) where
  before : World κ
  op : Op

namespace Call

def outcome (c : Call κ) : Except Fault Reply :=
  (c.before.step c.op).1

def after (c : Call κ) : World κ :=
  (c.before.step c.op).2

end Call

namespace World

def after (w : World κ) (ops : List Op) : World κ :=
  (w.run ops).2

def calls (w : World κ) : List Op → List (Call κ)
  | [] => []
  | op :: rest => ⟨w, op⟩ :: (w.step op).2.calls rest

variable (w : World κ)

theorem after_cons (op : Op) (rest : List Op) :
    w.after (op :: rest) = (w.step op).2.after rest := rfl

theorem after_append (front rest : List Op) :
    w.after (front ++ rest) = (w.after front).after rest := by
  induction front generalizing w with
  | nil => rfl
  | cons op front ih => exact ih (w.step op).2

theorem after_concat (front : List Op) (op : Op) :
    w.after (front ++ [op]) = ((w.after front).step op).2 :=
  w.after_append front [op]

theorem op_mem_of_mem_calls {ops : List Op} {c : Call κ} (h : c ∈ w.calls ops) : c.op ∈ ops := by
  induction ops generalizing w with
  | nil => cases h
  | cons op rest ih =>
    rcases List.mem_cons.mp h with rfl | h
    · exact List.mem_cons_self
    · exact List.mem_cons_of_mem _ (ih _ h)

theorem before_of_forall_calls {P : World κ → Prop} {ops : List Op} (h : P w)
    (hstep : ∀ c ∈ w.calls ops, P c.before → P c.after) : ∀ c ∈ w.calls ops, P c.before := by
  induction ops generalizing w with
  | nil => intro c hc; cases hc
  | cons op rest ih =>
    intro c hc
    rcases List.mem_cons.mp hc with rfl | hc
    · exact h
    · exact ih _ (hstep _ List.mem_cons_self h)
        (fun a ha => hstep a (List.mem_cons_of_mem _ ha)) c hc

theorem after_of_forall_calls {P : World κ → Prop} {ops : List Op} (h : P w)
    (hstep : ∀ c ∈ w.calls ops, P c.before → P c.after) : P (w.after ops) := by
  induction ops generalizing w with
  | nil => exact h
  | cons op rest ih =>
    exact ih _ (hstep _ List.mem_cons_self h) fun c hc => hstep c (List.mem_cons_of_mem _ hc)

/-- Calls that each take one from a budget, which no call adds to, are as many as it allows. -/
theorem countP_le_of_forall_calls (budget : World κ → Nat) (takes : Call κ → Bool) {ops : List Op}
    (h : ∀ c ∈ w.calls ops, budget c.after + (takes c).toNat ≤ budget c.before) :
    budget (w.after ops) + (w.calls ops).countP takes ≤ budget w := by
  induction ops generalizing w with
  | nil => exact Nat.le_refl _
  | cons op rest ih =>
    simp only [calls, List.forall_mem_cons] at h
    have hhead := h.1
    have htail := ih (w.step op).2 h.2
    change budget (w.step op).2 + _ ≤ budget w at hhead
    rw [calls, List.countP_cons, after_cons]
    cases htakes : takes ⟨w, op⟩
    · rw [htakes] at hhead
      simp only [Bool.toNat_false, Bool.false_eq_true, if_false] at hhead ⊢
      omega
    · rw [htakes] at hhead
      simp only [Bool.toNat_true, if_true] at hhead ⊢
      omega

end World

/-- A world with one duration of some length, on a clock that reads zero. -/
def World.solo (length : Int) : World Unit :=
  World.empty.after [.newClock 0, .newLength (.whole "length" length),
    .newDuration { length := some ⟨0⟩, clock := .manual ⟨0⟩ }]

end Tween
