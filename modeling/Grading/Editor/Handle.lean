import Grading.Decimal.Digits

/-!
# Handles

The editor names the slots and outputs of a node by handles, which are made of the id of the
node:

* `<id>` is the slot `0`, and `<id>-<n>` the slot `n`;
* `<id>` and `<id>-source` are the output `0`, and `<id>-<n>-source` the output `n`.

An id may itself look like a handle, so handles are read from the known id on and not from their
last part.
-/

namespace Grading.Editor

/-- The number after a hyphen. -/
def numberAfterHyphen? : List Char → Option UInt32
  | '-' :: ds => Digits.readUInt32? ds
  | _ => none

/-- The slot that a handle names. -/
def targetSlot? (id handle : String) : Option UInt32 :=
  if handle = id then some 0
  else do numberAfterHyphen? (← id.toList.isPrefixOf? handle.toList)

/-- What comes before the last part of a source handle. -/
def beforeSource? (cs : List Char) : Option (List Char) := "-source".toList.isSuffixOf? cs

/-- The output that a handle names. -/
def sourceOutput? (id handle : String) : Option UInt32 :=
  if handle = id then some 0
  else do
    let number ← beforeSource? (← id.toList.isPrefixOf? handle.toList)
    if number.isEmpty then some 0 else numberAfterHyphen? number

end Grading.Editor
