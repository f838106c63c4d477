import ColoredCtl.Color.Algebra

namespace ColoredCtl.Color

/-- Truth values as color sets. -/
def Algebra.truth : Algebra Bool where
  domain := .truth
  full := ⟨fun _ => true⟩
  empty := ⟨fun _ => false⟩
  inter a b := .ok (a && b)
  union a b := .ok (a || b)
  compl a := .ok (!a)
  diff a b := .ok (a && !b)
  nonempty a := .ok a
  accept _ := .ok ()
  equal a b := .ok (a == b)
  byteSize _ := 1
  put a := .ok (Wire.put .byte (if a then 1 else 0))
  get bytes := do
    let (n, rest) ← (Wire.next .byte bytes).mapError .truncated
    if n = 0 then return (false, rest)
    else if n = 1 then return (true, rest)
    else throw (.colorByte n)
  text a := if a then "tt" else "ff"
  describe a := if a then "true" else "false"
  height := 1

end ColoredCtl.Color
