import WorkQueue.Bytes

/-!
# Tube names

A name is 1 to 200 bytes of letters, digits and `-+/;.$_()`, and does not start with a hyphen.
`TubeName.ofBytes?` accepts exactly these.
-/

namespace WorkQueue

namespace TubeName

/-- The most bytes a name has. -/
def maxLength : Nat := 200

/-- Letters, digits and `+/;.$_()` : the bytes that may stand anywhere in a name. -/
def isPlainByte (b : UInt8) : Bool :=
  (97 ≤ b && b ≤ 122) || (65 ≤ b && b ≤ 90) || (48 ≤ b && b ≤ 57) ||
    (ascii "+/;.$_()").contains b

def hyphen : UInt8 := 45

/-- The rule for names. -/
def isName : Bytes → Bool
  | [] => false
  | first :: rest =>
    rest.length < maxLength && isPlainByte first &&
      rest.all fun b => isPlainByte b || b == hyphen

end TubeName

/-- A valid name of a tube. -/
structure TubeName where
  bytes : Bytes
  valid : TubeName.isName bytes = true
  deriving DecidableEq

namespace TubeName

def ofBytes? (bytes : Bytes) : Option TubeName :=
  if h : isName bytes = true then some ⟨bytes, h⟩ else none

/-- The tube a client uses and watches when it connects. -/
def default : TubeName := ⟨ascii "default", by decide⟩

/-- The name as text. Its bytes are all ASCII. -/
def chars (name : TubeName) : List Char := latin1 name.bytes

theorem ofBytes?_bytes (name : TubeName) : ofBytes? name.bytes = some name := by
  simp [ofBytes?, name.valid]

theorem ofBytes?_eq_some {bytes : Bytes} {name : TubeName} :
    ofBytes? bytes = some name ↔ name.bytes = bytes := by
  constructor
  · intro h
    unfold ofBytes? at h
    split at h
    · cases h; rfl
    · cases h
  · rintro rfl
    exact ofBytes?_bytes name

end TubeName

end WorkQueue
