import Mathlib.Data.List.Chain
import Wizard.FeatureTableRows

/-! The loop of `filter` erases from the list that it walks, so after a row that goes
it passes over the next one. -/

namespace Wizard

section Sieve

variable {α : Type*} (p : α → Bool)

variable {p}

end Sieve

namespace FeatureTable

variable {Ty : Type} {El : Ty → Type} {s s' : FeatureTable Ty El} {t : Ty} {id i fuel : Nat} {name : String}
  {isFilter : El t → Bool}

end FeatureTable

end Wizard
