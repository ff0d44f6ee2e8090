/-!
# Columns

Texts filled up with spaces to a width, counted in characters.
-/

namespace MonitoredVm.Text

def padRight (width : Nat) (s : String) : String := s ++ String.ofList (List.replicate (width - s.length) ' ')

def padLeft (width : Nat) (s : String) : String := String.ofList (List.replicate (width - s.length) ' ') ++ s

end MonitoredVm.Text
