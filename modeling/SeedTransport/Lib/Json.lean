import SeedTransport.Lib.Utf

set_option autoImplicit false

/-! JSON values. -/

open Utf

/-- A value of JSON. An object keeps the fields of its text; `field` reads the last of a name. -/
inductive Json where
  | null
  | bool (b : Bool)
  | num (q : ℚ)
  | str (s : JsString)
  | arr (items : List Json)
  | obj (fields : List (JsString × Json))

namespace Json

/-- `isRecord`: an object that is no array. -/
def isRecord : Json → Bool
  | .obj _ => true
  | _ => false

/-- `o.name`, none for `undefined`. -/
def field (o : Json) (name : JsString) : Option Json :=
  match o with
  | .obj fields => (fields.reverse.find? fun f => decide (f.1 = name)).map Prod.snd
  | _ => none

def str? : Json → Option JsString
  | .str s => some s
  | _ => none

def arr? : Json → Option (List Json)
  | .arr items => some items
  | _ => none

/-- The natural number of a value that is a safe integer, and not negative. -/
def safeNat? : Json → Option Nat
  | .num q => if q.den = 1 ∧ 0 ≤ q.num ∧ q.num ≤ 2 ^ 53 - 1 then some q.num.toNat else none
  | _ => none

end Json
