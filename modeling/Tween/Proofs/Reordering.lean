import Tween.Proofs.Tick

namespace Tween

variable {κ : Type}

namespace World

section

variable (w : World κ) (s : Ref System) (bs : List (Ref Binding))

end

end World

end Tween
