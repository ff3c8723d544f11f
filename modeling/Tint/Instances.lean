import Tint.Instances.FileDialog
import Tint.Instances.DropDown
import Tint.Instances.BorderRadius
import Tint.Instances.Notification

/-!
# Components whose instances share a variable

Some state that looks like that of an instance is shared by all instances of its
component.

* `instances_isolated_iff` -- for each of four components, when instances see what they
  would see alone;
* `type_of_another` -- an open dialog turns into a save dialog.
-/

namespace Instances

open Transition Isolation

/-- **Instance isolation.**  In a run each instance of a component sees what it would see
had only its own actions been taken, exactly when every step meets the condition of the
component. -/
theorem instances_isolated_iff (getFullPath : String → String) (children : Nat → List Nat)
    (packaged : Bool) :
    (∀ as, Isolated (FileDialog.component getFullPath) as ↔
      Meets (FileDialog.component getFullPath).next FileDialog.Ok
        (FileDialog.component getFullPath).start as) ∧
    (∀ as, Isolated (DropDown.component children) as ↔
      Meets (DropDown.component children).next (DropDown.Ok children)
        (DropDown.component children).start as) ∧
    (∀ as, Isolated BorderRadius.component as ↔
      Meets BorderRadius.component.next BorderRadius.Ok BorderRadius.component.start as) ∧
    ∀ as, Isolated (Notification.component packaged) as ↔
      Meets (Notification.component packaged).next Notification.Ok
        (Notification.component packaged).start as :=
  ⟨FileDialog.isolated_iff getFullPath, DropDown.isolated_iff children,
    BorderRadius.isolated_iff, Notification.isolated_iff packaged⟩

/-- **The type of another dialog.**  An open dialog reports `save` once a save dialog has
been constructed. -/
theorem type_of_another :
    ¬ Isolated (FileDialog.component id) [.construct 0 none, .construct 1 (some "save")] := by
  intro h
  have hview := h _ (List.prefix_refl _) 0
  have htype : some "save" = some "open" :=
    congrArg FileDialog.Report.type (Option.some.inj hview)
  exact absurd htype (by decide)

end Instances
