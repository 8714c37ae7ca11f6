import Ensemble.Disk.Basic
import Ensemble.Settings.Layers

/-!
Settings files on a disk.
-/

namespace Ensemble.Settings

/-- What a settings file holds, by what was found at its path: where nothing can be reached, there
is no such file. -/
def Source.ofFound : Except Disk.Fault Disk → Source
  | .error _ => .missing
  | .ok d =>
    match d.text with
    | .ok content => .text content
    | .error fault => .unreadable fault.message

end Ensemble.Settings
