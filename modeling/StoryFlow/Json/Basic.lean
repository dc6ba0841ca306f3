import StoryFlow.Number.Basic

/-! # Document values

JSON values whose objects are ordered lists of fields. A field is put in the place that printing
shows: keys that are array indices stand first in ascending order, the others follow as they
came, and a key that is there already keeps its place and takes the new value.
-/

namespace StoryFlow

inductive Json where
  | null
  | bool (b : Bool)
  | num (n : Number)
  | str (s : String)
  | arr (items : List Json)
  | obj (fields : List (String × Json))
deriving Inhabited

abbrev Fields := List (String × Json)

namespace Json

mutual

def beq : Json → Json → Bool
  | null, null => true
  | bool a, bool b => a == b
  | num a, num b => a == b
  | str a, str b => a == b
  | arr a, arr b => beqItems a b
  | obj a, obj b => beqFields a b
  | _, _ => false

def beqItems : List Json → List Json → Bool
  | [], [] => true
  | a :: as, b :: bs => beq a b && beqItems as bs
  | _, _ => false

def beqFields : List (String × Json) → List (String × Json) → Bool
  | [], [] => true
  | (k, a) :: as, (l, b) :: bs => k == l && beq a b && beqFields as bs
  | _, _ => false

end

mutual

theorem eq_of_beq : ∀ {a b : Json}, beq a b = true → a = b
  | null, null, _ => rfl
  | bool a, bool b, h => by simpa [beq] using h
  | num a, num b, h => by simpa [beq] using h
  | str a, str b, h => by simpa [beq] using h
  | arr _, arr _, h => congrArg arr (eq_of_beqItems (by simpa [beq] using h))
  | obj _, obj _, h => congrArg obj (eq_of_beqFields (by simpa [beq] using h))
  | null, bool _, h | null, num _, h | null, str _, h | null, arr _, h | null, obj _, h
  | bool _, null, h | bool _, num _, h | bool _, str _, h | bool _, arr _, h | bool _, obj _, h
  | num _, null, h | num _, bool _, h | num _, str _, h | num _, arr _, h | num _, obj _, h
  | str _, null, h | str _, bool _, h | str _, num _, h | str _, arr _, h | str _, obj _, h
  | arr _, null, h | arr _, bool _, h | arr _, num _, h | arr _, str _, h | arr _, obj _, h
  | obj _, null, h | obj _, bool _, h | obj _, num _, h | obj _, str _, h | obj _, arr _, h => by
    simp [beq] at h

theorem eq_of_beqItems : ∀ {a b : List Json}, beqItems a b = true → a = b
  | [], [], _ => rfl
  | a :: as, b :: bs, h => by
    rw [beqItems, Bool.and_eq_true] at h
    rw [eq_of_beq h.1, eq_of_beqItems h.2]
  | [], _ :: _, h | _ :: _, [], h => by simp [beqItems] at h

theorem eq_of_beqFields : ∀ {a b : List (String × Json)}, beqFields a b = true → a = b
  | [], [], _ => rfl
  | (k, a) :: as, (l, b) :: bs, h => by
    rw [beqFields, Bool.and_eq_true, Bool.and_eq_true, beq_iff_eq] at h
    rw [h.1.1, eq_of_beq h.1.2, eq_of_beqFields h.2]
  | [], _ :: _, h | _ :: _, [], h => by simp [beqFields] at h

end

mutual

theorem beq_refl : ∀ a : Json, beq a a = true
  | null => rfl
  | bool _ | num _ | str _ => by simp [beq]
  | arr a => by rw [beq, beqItems_refl a]
  | obj a => by rw [beq, beqFields_refl a]

theorem beqItems_refl : ∀ a : List Json, beqItems a a = true
  | [] => rfl
  | a :: as => by rw [beqItems, beq_refl a, beqItems_refl as]; rfl

theorem beqFields_refl : ∀ a : List (String × Json), beqFields a a = true
  | [] => rfl
  | (k, a) :: as => by simp [beqFields, beq_refl a, beqFields_refl as]

end

instance : DecidableEq Json := fun a b =>
  if h : beq a b then isTrue (eq_of_beq h) else isFalse fun e => h (e ▸ beq_refl a)

end Json

namespace Fields

def get? (fs : Fields) (key : String) : Option Json :=
  fs.lookup key

def keys (fs : Fields) : List String :=
  fs.map Prod.fst

/-- The value of decimal digits read from the left. -/
def readDigits (cs : List Char) : Nat :=
  cs.foldl (fun n c => 10 * n + (c.toNat - 48)) 0

/-- The index that a key denotes: decimal digits without a leading zero, up to 4294967294. -/
def index? (key : String) : Option Nat :=
  let cs := key.toList
  if cs ≠ [] ∧ cs.all Char.isDigit ∧ (cs.head? ≠ some '0' ∨ cs = ['0']) ∧ cs.length ≤ 10 ∧
      readDigits cs ≤ 4294967294 then
    some (readDigits cs)
  else none

/-- Does a key stand before the index `n` that is put into the object? -/
def standsBefore (n : Nat) (key : String) : Bool :=
  (index? key).any (· < n)

/-- Puts a field whose key is new in its place. -/
def place (key : String) (value : Json) (fs : Fields) : Fields :=
  match index? key with
  | none => fs ++ [(key, value)]
  | some n =>
    fs.takeWhile (fun f => standsBefore n f.1) ++ (key, value) ::
      fs.dropWhile (fun f => standsBefore n f.1)

/-- Sets a field. -/
def set (fs : Fields) (key : String) (value : Json) : Fields :=
  if fs.any (·.1 == key) then fs.map (fun f => if f.1 == key then (key, value) else f)
  else place key value fs

/-- Sets the fields of a list in turn. -/
def ofList (pairs : List (String × Json)) : Fields :=
  pairs.foldl (fun fs f => set fs f.1 f.2) []

/-- The one key that a table of names cannot hold: a value written to it is lost. -/
def lostKey : String := "__proto__"

/-- The table of names and values: written in turn, with the lost key left out. -/
def table (pairs : List (String × Json)) : Fields :=
  ofList (pairs.filter (·.1 != lostKey))

/-- The fields without the lost key. -/
def kept (fs : Fields) : Fields :=
  fs.filter (·.1 != lostKey)

end Fields

namespace Json

/-- An object of the given fields, put in their places. -/
def ofFields (pairs : List (String × Json)) : Json :=
  obj (Fields.ofList pairs)

def ofNat (n : Nat) : Json :=
  num (Number.ofNat n)

def ofOption {α : Type} (f : α → Json) (x : Option α) : Json :=
  x.elim null f

/-- The elements of an array. -/
def items? : Json → Option (List Json)
  | arr items => some items
  | _ => none

/-- The fields of an object. -/
def fields? : Json → Option Fields
  | obj fields => some fields
  | _ => none

end Json

end StoryFlow
