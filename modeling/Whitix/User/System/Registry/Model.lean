import Mathlib.Data.List.Infix

/-!
# The registry server

A key set of the registry has a name, child sets and keys.  The server looks up
the components of a path one after another, by comparing the names of the
children without regard to case.

The key sets in memory are numbered in the order of their allocation, the root
is number zero.  A linked list is modelled by the list of its nodes: the server
only appends to it.  A string is the list of its bytes without the final zero,
and memory does not run out.
-/

namespace Whitix.RegServer

/-! ## Strings -/

def isupper (c : UInt8) : Bool := 65 ≤ c ∧ c ≤ 90

def tolower (c : UInt8) : UInt8 := if isupper c then c + 0x20 else c

/-- The end of a string compares as a zero byte. -/
def strncasecmp : List UInt8 → List UInt8 → ℕ → ℤ
  | _, _, 0 => 0
  | [], [], _ + 1 => 0
  | [], b :: _, _ + 1 => 0 - (tolower b).toNat
  | a :: _, [], _ + 1 => (tolower a).toNat - 0
  | a :: s, b :: t, num + 1 =>
    if ((tolower a).toNat : ℤ) - (tolower b).toNat ≠ 0 then
      (tolower a).toNat - (tolower b).toNat
    else strncasecmp s t num

def strcasecmp (s t : List UInt8) : ℤ := strncasecmp s t 0xFFFFFFFF

/-! ## Key sets and keys -/

/-- The union of a key; a key of an unknown type has no value. -/
inductive RegValue
  | str (sValue : List UInt8)
  | int (iValue : ℤ)
  | unknown
  deriving DecidableEq, Repr

structure RegKey where
  key : List UInt8
  type : ℤ
  value : RegValue
  description : Option (List UInt8)
  deriving DecidableEq, Repr

structure RegKeySet where
  name : List UInt8
  children : List ℕ
  numChildren : ℕ
  keys : List RegKey
  numKeys : ℕ

structure Registry where
  set : ℕ → RegKeySet
  size : ℕ

def regKeySetCreateRoot : Registry where
  set _ := ⟨[47], [], 0, [], 0⟩
  size := 1

section Functions

variable (r : Registry)

def regKeySetLookupOne (currSet : ℕ) (currName : List UInt8) (length : ℕ) : Option ℕ :=
  (r.set currSet).children.find? fun currChild =>
    strncasecmp (r.set currChild).name currName length = 0

/-- The loop of `RegKeySetLookup`: `length` bytes of the component at `currName`
have been read, and `path` is what comes next.  `none` is the return of `NULL`. -/
def lookupLoop (currSet : ℕ) (currName : List UInt8) (length : ℕ) :
    List UInt8 → Option (ℕ × List UInt8)
  | [] => some (currSet, currName)
  | c :: path =>
    if c = 47 then
      (regKeySetLookupOne r currSet currName length).bind fun currSet =>
        if path = [] then some (currSet, currName)
        else lookupLoop currSet path 0 path
    else lookupLoop currSet currName (length + 1) path

/-- `RegKeySetLookup` with the value of `name`.  An empty path has no name, and
`NULL` is used as a string then. -/
def regKeySetLookup (keySet : Option ℕ) (path : List UInt8) : Option (ℕ × List UInt8) :=
  let start : Option ℕ × List UInt8 :=
    match path with
    | 47 :: path => (some 0, path)
    | path => (keySet, path)
  start.1.bind fun currSet =>
    if start.2 = [] then none else lookupLoop r currSet start.2 0 start.2

/-- If there is no parent, `name` is used uninitialised. -/
def regKeySetGet (path : List UInt8) : Option (Option ℕ) :=
  if path = [47] then some (some 0)
  else
    (regKeySetLookup r none path).map fun parent =>
      regKeySetLookupOne r parent.1 parent.2 parent.2.length

def regKeySetFindKey (keySet : ℕ) (name : List UInt8) : Option RegKey :=
  (r.set keySet).keys.find? fun currKey => strcasecmp currKey.key name = 0

def regKeySetAddKey (parent : ℕ) (key : RegKey) : Registry :=
  { r with
    set := Function.update r.set parent { r.set parent with
      keys := (r.set parent).keys ++ [key]
      numKeys := (r.set parent).numKeys + 1 } }

def regKeySetAddChild (parent child : ℕ) : Registry :=
  { r with
    set := Function.update r.set parent { r.set parent with
      children := (r.set parent).children ++ [child]
      numChildren := (r.set parent).numChildren + 1 } }

def regKeySetCreateOne (parent : ℕ) (name : List UInt8) (length : ℕ) : ℕ × Registry :=
  (r.size, regKeySetAddChild
    { set := Function.update r.set r.size ⟨name.take length, [], 0, [], 0⟩
      size := r.size + 1 } parent r.size)

def regKeySetCreate (keySet : Option ℕ) (path : List UInt8) : Option Registry :=
  (regKeySetLookup r keySet path).map fun parent =>
    match regKeySetLookupOne r parent.1 parent.2 parent.2.length with
    | some _ => r
    | none => (regKeySetCreateOne r parent.1 parent.2 parent.2.length).2

end Functions

def nextSet (r : Registry) (currSet : ℕ) (currName : List UInt8) (length : ℕ) : ℕ × Registry :=
  match regKeySetLookupOne r currSet currName length with
  | some nextSet => (nextSet, r)
  | none => regKeySetCreateOne r currSet currName length

/-- The loop of `RegKeyCreate` with the set and the name it ends with. -/
def createLoop (r : Registry) (currSet : ℕ) (currName : List UInt8)
    (length : ℕ) : List UInt8 → Registry × ℕ × List UInt8
  | [] => (r, currSet, currName)
  | c :: path =>
    if c = 47 then
      let next := nextSet r currSet currName length
      if path = [] then (next.2, next.1, currName)
      else createLoop next.2 next.1 path 0 path
    else createLoop r currSet currName (length + 1) path

/-- `RegStrToType` of a string whose first byte is a signed `char`. -/
def regStrToType (type : List UInt8) : ℤ := (type.headD 0).toInt8.toInt - 48

def newKey (atoi : List UInt8 → ℤ) (key value : List UInt8)
    (type description : Option (List UInt8)) : RegKey where
  key := key
  type := (type.map regStrToType).getD 0
  value :=
    if (type.map regStrToType).getD 0 = 0 then .str value
    else if (type.map regStrToType).getD 0 = 1 then .int (atoi value)
    else .unknown
  description := description

/-- There is no key without a name. -/
def regKeyCreate (atoi : List UInt8 → ℤ) (r : Registry) (keySet : ℕ) (key value : List UInt8)
    (type description : Option (List UInt8)) : Option Registry :=
  if key = [] then none
  else
    let e := createLoop r keySet key 0 key
    some (regKeySetAddKey e.1 e.2.1 (newKey atoi e.2.2 value type description))

end Whitix.RegServer
