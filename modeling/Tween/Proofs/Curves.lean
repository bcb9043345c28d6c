import Tween.Proofs.RoundTrip
import Tween.Proofs.Timing

namespace Tween

def Easing.isCurve : Easing → Bool
  | .function .. => false
  | _ => true

namespace Number

end Number

namespace Curve

open Number

theorem isOk_eval_ends (c : Curve) :
    (c.eval 0.0).isOk = true ∧ (c.eval 1.0).isOk = true := by
  cases c <;> decide +kernel

end Curve

namespace Easing

theorem isOk_eval_endpoint {e : Easing} (he : e.isCurve = true) (t : Timer) :
    (e.eval t.endpoint).isOk = true := by
  cases e with
  | named c =>
    unfold Timer.endpoint
    split
    · exact c.isOk_eval_ends.1
    · exact c.isOk_eval_ends.2
  | bezier c => rfl
  | function => cases he

end Easing

theorem Description.isCurve_of_read? {text : String} {d : Description}
    (h : read? text = .ok (some d)) : d.easing.isCurve = true := by
  obtain ⟨n, ws, -, -, heasing, -⟩ := of_read? h
  obtain ⟨length, name, easing⟩ := d
  cases heasing <;> rfl

theorem Setting.read?_of_ofText {name text : String} {s : Setting Description}
    (h : ofText name text = .ok s) : Description.read? text = .ok (some s.value) := by
  unfold ofText at h
  rcases hread : Description.read? text with _ | _ | d <;> rw [hread] at h <;> cases h
  rfl

theorem Setting.isCurve_of_ofText {name text : String} {s : Setting Description}
    (h : ofText name text = .ok s) : s.value.easing.isCurve = true :=
  Description.isCurve_of_read? (read?_of_ofText h)

namespace World

variable {κ : Type} {w : World κ} {d : Ref Duration}

theorem isOk_progress_of_finished (he : (w.easing d).isCurve = true)
    (hf : w.finished d = true) : (w.progress d).isOk = true := by
  rw [progress, if_pos hf]
  exact Easing.isOk_eval_endpoint he (w.timer d)

end World

end Tween
