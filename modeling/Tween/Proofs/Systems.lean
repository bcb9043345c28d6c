import Mathlib.Data.List.Induction
import Tween.Proofs.Orderly

namespace Tween

variable {κ : Type}

namespace World

variable (w : World κ) (s : Ref System)

section Tick

variable {w : World κ} {s : Ref System} {past : List Op}

end Tick

end World

end Tween
