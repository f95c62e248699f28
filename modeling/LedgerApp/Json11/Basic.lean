import LedgerApp.Bytes

/-!
The value type of json11 with its accessors, which return a default on a value of another type.
-/

namespace Json11

/--
What json11 uses of the C type `double`: `strtod` on the text of one number, `snprintf` with
`"%.17g"`, the conversion from `int` and `==`.
-/
structure Double where
  Val : Type
  strtod : Str → Val
  isfinite : Val → Bool
  snprintf : Val → Str
  ofInt : Int → Val
  eq : Val → Val → Bool

/--
A JSON value. `int` and `double` are the two classes of a NUMBER; the fields of an `object` stand
in the order of `std::map`, by key and without a key twice.
-/
inductive Json (F : Double) where
  | null
  | bool (value : Bool)
  | int (value : Int)
  | double (value : F.Val)
  | string (value : Str)
  | array (items : List (Json F))
  | object (fields : List (Str × Json F))

namespace Json

variable {F : Double}

instance : Inhabited (Json F) where
  default := .null

def isObject : Json F → Bool
  | .object _ => true
  | _ => false

def isArray : Json F → Bool
  | .array _ => true
  | _ => false

def isString : Json F → Bool
  | .string _ => true
  | _ => false

def boolValue : Json F → Bool
  | .bool value => value
  | _ => false

def stringValue : Json F → Str
  | .string value => value
  | _ => []

def arrayItems : Json F → List (Json F)
  | .array items => items
  | _ => []

def find (key : Str) : List (Str × Json F) → Option (Json F)
  | [] => none
  | (k, v) :: fields => if k = key then some v else find key fields

-- `operator[]`
def get (json : Json F) (key : Str) : Json F :=
  match json with
  | .object fields => (find key fields).getD .null
  | _ => .null

-- `data[key] = value`
def insert (key : Str) (value : Json F) : List (Str × Json F) → List (Str × Json F)
  | [] => [(key, value)]
  | (k, v) :: fields =>
    if key = k then
      (key, value) :: fields
    else if key < k then
      (key, value) :: (k, v) :: fields
    else
      (k, v) :: insert key value fields

mutual

-- `operator==`
def equals : Json F → Json F → Bool
  | .null, .null => true
  | .bool a, .bool b => a == b
  | .int a, .int b => F.eq (F.ofInt a) (F.ofInt b)
  | .int a, .double b => F.eq (F.ofInt a) b
  | .double a, .int b => F.eq a (F.ofInt b)
  | .double a, .double b => F.eq a b
  | .string a, .string b => a == b
  | .array as, .array bs => equalItems as bs
  | .object as, .object bs => equalFields as bs
  | _, _ => false

def equalItems : List (Json F) → List (Json F) → Bool
  | [], [] => true
  | a :: as, b :: bs => equals a b && equalItems as bs
  | _, _ => false

def equalFields : List (Str × Json F) → List (Str × Json F) → Bool
  | [], [] => true
  | (k, a) :: as, (l, b) :: bs => k == l && equals a b && equalFields as bs
  | _, _ => false

end

mutual

def Finite : Json F → Prop
  | .double value => F.isfinite value
  | .array items => FiniteItems items
  | .object fields => FiniteFields fields
  | _ => True

def FiniteItems : List (Json F) → Prop
  | [] => True
  | v :: items => Finite v ∧ FiniteItems items

def FiniteFields : List (Str × Json F) → Prop
  | [] => True
  | (_, v) :: fields => Finite v ∧ FiniteFields fields

end

def keys (fields : List (Str × Json F)) : List Str :=
  fields.map Prod.fst

mutual

-- what the parser builds: `atoi` is used on at most nine characters, and a map is sorted
def Canonical : Json F → Prop
  | .int value => (Bytes.decimal value).length ≤ 9
  | .array items => CanonicalItems items
  | .object fields => (keys fields).Pairwise (· < ·) ∧ CanonicalFields fields
  | _ => True

def CanonicalItems : List (Json F) → Prop
  | [] => True
  | v :: items => Canonical v ∧ CanonicalItems items

def CanonicalFields : List (Str × Json F) → Prop
  | [] => True
  | (_, v) :: fields => Canonical v ∧ CanonicalFields fields

end

mutual

def depth : Json F → Nat
  | .array items => depthItems items + 1
  | .object fields => depthFields fields + 1
  | _ => 0

def depthItems : List (Json F) → Nat
  | [] => 0
  | v :: items => max (depth v) (depthItems items)

def depthFields : List (Str × Json F) → Nat
  | [] => 0
  | (_, v) :: fields => max (depth v) (depthFields fields)

end

end Json
end Json11
