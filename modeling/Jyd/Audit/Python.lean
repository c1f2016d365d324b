import Mathlib.Algebra.Order.Ring.Rat
import Mathlib.Data.BitVec

/-!
# Python — the values and the file system of the audit scripts

What `json.load` produces, with the equality, the order and the truth value that Python gives it,
the string and path operations of the scripts, and the file system they look at.  A dictionary is
the list of its items.
-/

namespace Jyd
namespace Audit

/-! ## Numbers -/

/-- A floating-point number; the finite ones by their exact value. -/
inductive PyFloat
  | finite (value : ℚ)
  | infinity (negative : Bool)
  | nan
  deriving DecidableEq

namespace PyFloat

def lt : PyFloat → PyFloat → Bool
  | .finite a, .finite b => a < b
  | .finite _, .infinity negative => !negative
  | .infinity negative, .finite _ => negative
  | .infinity a, .infinity b => a && !b
  | _, _ => false

/-- Every comparison with a value that is not a number fails. -/
def le (a b : PyFloat) : Bool := a.lt b || (a != .nan && a == b)

end PyFloat

/-! ## Values -/

inductive Json
  | null
  | bool (b : Bool)
  | int (n : ℤ)
  | float (x : PyFloat)
  | str (s : String)
  | arr (items : List Json)
  | obj (fields : List (String × Json))

abbrev Dict := List (String × Json)

namespace Dict

/-- `d.get(key)`. -/
def get (d : Dict) (key : String) : Json := (d.lookup key).getD .null

/-- `d.get(key, {})`. -/
def getObj (d : Dict) (key : String) : Json := (d.lookup key).getD (.obj [])

end Dict

namespace Json

/-- The number that a value is; a truth value is one or zero. -/
def number : Json → Option PyFloat
  | .bool b => some (.finite (if b then 1 else 0))
  | .int n => some (.finite n)
  | .float x => some x
  | _ => none

def isNull : Json → Bool
  | .null => true
  | _ => false

def isStr : Json → Bool
  | .str _ => true
  | _ => false

def isObj : Json → Bool
  | .obj _ => true
  | _ => false

/-- `v.get(key) if isinstance(v, dict) else None`. -/
def sub (v : Json) (key : String) : Json :=
  match v with
  | .obj d => Dict.get d key
  | _ => .null

/-- `v if isinstance(v, dict) else {}`. -/
def fields : Json → Dict
  | .obj d => d
  | _ => []

mutual

/-- Two elements of containers are the same.  All numbers that are no numbers are one object,
which containers compare by its identity. -/
def same : Json → Json → Bool
  | .null, .null => true
  | .str a, .str b => a == b
  | .arr a, .arr b => sameItems a b
  -- the keys of a dictionary are distinct, so equal sizes and one inclusion are enough
  | .obj a, .obj b => a.length == b.length && sameFields a b
  | a, b =>
    match a.number, b.number with
    | some x, some y => x == y
    | _, _ => false

def sameItems : List Json → List Json → Bool
  | [], [] => true
  | a :: as, b :: bs => same a b && sameItems as bs
  | _, _ => false

def sameFields : Dict → Dict → Bool
  | [], _ => true
  | (key, a) :: rest, other =>
    (match other.lookup key with
      | some b => same a b
      | none => false) && sameFields rest other

end

/-- `a == b`. -/
def eq (a b : Json) : Bool := a.number != some .nan && same a b

def truthy : Json → Bool
  | .null => false
  | .bool b => b
  | .int n => n != 0
  | .float x => x != .finite 0
  | .str s => s != ""
  | .arr items => !items.isEmpty
  | .obj d => !d.isEmpty

/-- `a or b`. -/
def orElse (a b : Json) : Json := if a.truthy then a else b

/-- `v is expected`, where `None` stands for an open outcome. -/
def is (v : Json) : Option Bool → Bool
  | none => v.isNull
  | some expected =>
    match v with
    | .bool b => b == expected
    | _ => false

theorem same_str {v : Json} {s : String} : same v (.str s) = true ↔ v = .str s := by
  cases v <;> simp [same, number]

theorem eq_str {v : Json} {s : String} : eq v (.str s) = true ↔ v = .str s := by
  rw [eq, Bool.and_eq_true, same_str]
  constructor
  · exact fun h => h.2
  · rintro rfl
    exact ⟨rfl, rfl⟩

theorem same_number {a b : Json} {x : PyFloat} (ha : a.number = some x) (h : same a b = true) :
    b.number = some x := by
  -- the left side is a number, so only the last branch of the comparison is open
  have hsame : same a b = match b.number with
      | some y => x == y
      | none => false := by
    cases a with
    | bool | int | float => obtain rfl := Option.some.inj ha; cases b <;> rfl
    | null | str | arr | obj => cases ha
  rw [hsame] at h
  cases hb : b.number with
  | none => simp [hb] at h
  | some y =>
    rw [hb] at h
    rw [eq_of_beq h]

/-- A number is equal to the values with the same number only. -/
theorem eq_number {a b : Json} {x : PyFloat} (ha : a.number = some x) (h : eq a b = true) :
    b.number = some x := by
  rw [eq, Bool.and_eq_true] at h
  exact same_number ha h.2

theorem is_some_iff {v : Json} {expected : Bool} : v.is (some expected) = true ↔ v = .bool expected := by
  cases v <;> simp [is]

theorem number_ne_null {v : Json} {x : PyFloat} (h : v.number = some x) : v.isNull = false := by
  cases v <;> simp [number] at h <;> rfl

end Json

/-! ## Strings -/

/-- The characters that `str.strip` removes. -/
def isSpace (c : Char) : Bool :=
  (0x9 ≤ c.toNat && c.toNat ≤ 0xd) || (0x1c ≤ c.toNat && c.toNat ≤ 0x20) || c.toNat == 0x85 ||
    c.toNat == 0xa0 || c.toNat == 0x1680 || (0x2000 ≤ c.toNat && c.toNat ≤ 0x200a) ||
    c.toNat == 0x2028 || c.toNat == 0x2029 || c.toNat == 0x202f || c.toNat == 0x205f ||
    c.toNat == 0x3000

/-- `isinstance(v, str) and v.strip()`. -/
def nonEmptyStr : Json → Bool
  | .str s => !s.toList.all isSpace
  | _ => false

def isHexDigit (c : Char) : Bool :=
  ('0' ≤ c && c ≤ '9') || ('a' ≤ c && c ≤ 'f') || ('A' ≤ c && c ≤ 'F')

/-- `SHA256_RE.fullmatch`. -/
def sha256Text (s : String) : Bool := s.toList.length == 64 && s.toList.all isHexDigit

/-- `COMMIT_RE.fullmatch`. -/
def commitText (s : String) : Bool :=
  7 ≤ s.toList.length && s.toList.length ≤ 64 && s.toList.all isHexDigit

def isSha256 : Json → Bool
  | .str s => sha256Text s
  | _ => false

def isCommit : Json → Bool
  | .str s => commitText s
  | _ => false

/-- Lower case of the ASCII letters. -/
def asciiLower (s : String) : String := String.ofList (s.toList.map Char.toLower)

/-- A message digest as 64 digits. -/
def hexdigest (digest : BitVec 256) : String :=
  String.ofList ((List.range 64).map fun k => Nat.digitChar (digest.extractLsb' (4 * (63 - k)) 4).toNat)

/-! ## Paths -/

structure Path where
  root : String
  parts : List String
  deriving DecidableEq

namespace Path

def ofText (s : String) : Path where
  root :=
    match s.toList with
    | '/' :: '/' :: '/' :: _ => "/"
    | '/' :: '/' :: _ => "//"
    | '/' :: _ => "/"
    | _ => ""
  parts := ((s.toList.splitOn '/').map String.ofList).filter fun part => part != "" && part != "."

def isAbsolute (p : Path) : Bool := p.root != ""

/-- `base / p`. -/
def join (base p : Path) : Path := if p.isAbsolute then p else ⟨base.root, base.parts ++ p.parts⟩

def parent (p : Path) : Path := ⟨p.root, p.parts.dropLast⟩

def text (p : Path) : String :=
  if p.root == "" && p.parts.isEmpty then "." else p.root ++ "/".intercalate p.parts

/-- The last dot of the name and what follows it, if there is something on both sides of it. -/
def suffix (p : Path) : String :=
  let name := ((p.parts.getLast?).getD "").toList
  let extension := (name.reverse.takeWhile (· != '.')).reverse
  if 0 < extension.length && extension.length + 1 < name.length then
    String.ofList ('.' :: extension)
  else ""

end Path

/-! ## Exceptions and files -/

inductive Exn
  | osError (text : String)
  | valueError (text : String)
  | typeError
  | attributeError
  | recursionError
  deriving DecidableEq, Repr

namespace Exn

/-- `except (OSError, ValueError, json.JSONDecodeError)`. -/
def caught : Exn → Bool
  | .osError _ | .valueError _ => true
  | _ => false

def text : Exn → String
  | .osError text | .valueError text => text
  | _ => ""

end Exn

inductive ParseError
  | invalid (text : String)
  | tooDeep

/-- What the scripts find outside: the file system, the JSON parser, the digest and the case
table of the interpreter.  A look at a file can end with an `OSError`. -/
structure World where
  isFile : Path → Except String Bool
  size : Path → Except String ℕ
  read : Path → Except String (List UInt8)
  parse : List UInt8 → Except ParseError Json
  sha256 : List UInt8 → BitVec 256
  lower : String → String
  lower_ascii : ∀ s, (∀ c ∈ s.toList, c.toNat < 128) → lower s = asciiLower s

namespace World

/-- A disk with no file on it. -/
def empty : World where
  isFile _ := .ok false
  size _ := .error "No such file or directory"
  read _ := .error "No such file or directory"
  parse _ := .error (.invalid "Expecting value")
  sha256 _ := 0
  lower := asciiLower
  lower_ascii _ _ := rfl

variable (world : World)

def loadJson (path : Path) : Except Exn Dict :=
  match world.read path with
  | .error text => .error (.osError text)
  | .ok bytes =>
    match world.parse bytes with
    | .error (.invalid text) => .error (.valueError text)
    | .error .tooDeep => .error .recursionError
    | .ok (.obj d) => .ok d
    | .ok _ => .error (.valueError ("expected a JSON object: " ++ path.text))

def sha256File (path : Path) : Except Exn String :=
  match world.read path with
  | .error text => .error (.osError text)
  | .ok bytes => .ok (hexdigest (world.sha256 bytes))

theorem loadJson_eq_ok {world : World} {path : Path} {d : Dict} (h : world.loadJson path = .ok d) :
    ∃ bytes, world.read path = .ok bytes ∧ world.parse bytes = .ok (.obj d) := by
  rw [loadJson] at h
  split at h
  · cases h
  · rename_i bytes hread
    refine ⟨bytes, hread, ?_⟩
    cases hparse : world.parse bytes with
    | error e => cases e <;> simp [hparse] at h
    | ok v =>
      cases v with
      | obj fields =>
        simp only [hparse, Except.ok.injEq] at h
        rw [h]
      | _ => simp [hparse] at h

end World

/-! ## Digests -/

theorem sha256Text_ascii {s : String} (h : sha256Text s = true) : ∀ c ∈ s.toList, c.toNat < 128 := by
  intro c hc
  simp only [sha256Text, Bool.and_eq_true, List.all_eq_true] at h
  have hdigit := h.2 c hc
  simp only [isHexDigit, Bool.or_eq_true, Bool.and_eq_true, decide_eq_true_eq, Char.le_def,
    UInt32.le_iff_toNat_le] at hdigit
  have hval : c.toNat = c.val.toNat := rfl
  have h9 : ('9' : Char).val.toNat = 57 := rfl
  have hf : ('f' : Char).val.toNat = 102 := rfl
  have hF : ('F' : Char).val.toNat = 70 := rfl
  omega

/-- The digits of a digest are lower case. -/
theorem digitChar_lower {n : ℕ} (h : n < 16) :
    (Nat.digitChar n).toNat < 128 ∧ (Nat.digitChar n).toLower = Nat.digitChar n := by
  revert n
  decide

theorem hexdigest_ascii (digest : BitVec 256) : ∀ c ∈ (hexdigest digest).toList, c.toNat < 128 := by
  intro c hc
  rw [hexdigest, String.toList_ofList, List.mem_map] at hc
  obtain ⟨k, -, rfl⟩ := hc
  exact (digitChar_lower (digest.extractLsb' _ 4).isLt).1

theorem asciiLower_hexdigest (digest : BitVec 256) :
    asciiLower (hexdigest digest) = hexdigest digest := by
  rw [asciiLower, hexdigest, String.toList_ofList, List.map_map]
  congr 1
  apply List.map_congr_left
  intro k _
  exact (digitChar_lower (digest.extractLsb' _ 4).isLt).2

namespace World

/-- A recorded digest matches whatever the case of its letters is. -/
theorem lower_eq_iff (world : World) {recorded : String} (h : sha256Text recorded = true)
    (digest : BitVec 256) :
    world.lower (hexdigest digest) = world.lower recorded ↔ asciiLower recorded = hexdigest digest := by
  rw [world.lower_ascii _ (hexdigest_ascii digest), world.lower_ascii _ (sha256Text_ascii h),
    asciiLower_hexdigest]
  exact eq_comm

end World

end Audit
end Jyd
