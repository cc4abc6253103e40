/-!
# Tables as lists

A list of entries as it was written, in which a key may occur more than once.  The last entry of
a key is the one that counts.
-/

namespace Grading

/-- The value of the last entry of a key. -/
def lastOf? {β : Type} (entries : List (String × β)) (key : String) : Option β :=
  entries.foldl (fun found e => if e.1 = key then some e.2 else found) none

end Grading
