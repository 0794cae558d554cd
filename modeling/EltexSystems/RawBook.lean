import EltexSystems.Lib.FlatMemory
import EltexSystems.PhoneBooks

/-!
# The phone book as memory

The array of `functions/functions.c` as the bytes it lies in, and words of any length scanned into
it: a word is written from the start of its field on, over whatever follows when it is longer than
the field.  What it overwrites behind the array is left out.
-/

namespace EltexSystems

open FlatMem

/-- The arrays of `struct abonent`, in order. -/
inductive AbonentField where
  | name
  | second_name
  | tel
  deriving DecidableEq

def AbonentField.offset : AbonentField → ℕ
  | .name => 0
  | .second_name => MAX_LEN
  | .tel => 2 * MAX_LEN

/-- `sizeof(struct abonent)`. -/
def abonentSize : ℕ := 3 * MAX_LEN

/-- The words typed for a record. -/
structure Typed where
  name : List UInt8
  second_name : List UInt8
  tel : List UInt8

def Typed.word (t : Typed) : AbonentField → List UInt8
  | .name => t.name
  | .second_name => t.second_name
  | .tel => t.tel

/-- The memory from `abonent_book` on, and the counter. -/
structure RawBook where
  mem : ℕ → UInt8
  abonent_count : ℕ
  fits : abonent_count ≤ MAX_ABONENTS

namespace RawBook

def start : RawBook := ⟨fun _ => 0, 0, Nat.zero_le _⟩

def fieldAddr (i : ℕ) (f : AbonentField) : ℕ := i * abonentSize + f.offset

/-- `scanf("%s", ...)` into a field; at the end of the input nothing is written. -/
def scanField (mem : ℕ → UInt8) (i : ℕ) (f : AbonentField) : Option (List UInt8) → ℕ → UInt8
  | none => mem
  | some w => write mem (fieldAddr i f) (w ++ [0])

def addAbonent (b : RawBook) (name second_name tel : Option (List UInt8)) : RawBook :=
  if h : b.abonent_count < MAX_ABONENTS then
    { mem :=
        let mem := scanField b.mem b.abonent_count .name name
        let mem := scanField mem b.abonent_count .second_name second_name
        scanField mem b.abonent_count .tel tel
      abonent_count := b.abonent_count + 1
      fits := h }
  else b

/-- The loop of `remove_abonent`, over the indices listed. -/
def shift (mem : ℕ → UInt8) (is : List ℕ) : ℕ → UInt8 :=
  is.foldl (fun mem i => copy mem (i * abonentSize) ((i + 1) * abonentSize) abonentSize) mem

def removeAbonent (b : RawBook) (number : ℤ) : RawBook :=
  if number < 0 ∨ number ≥ b.abonent_count then b
  else
    { mem := shift b.mem (List.range' number.toNat (b.abonent_count - 1 - number.toNat))
      abonent_count := b.abonent_count - 1
      fits := (Nat.sub_le _ _).trans b.fits }

/-- `abonent_book[i]`. -/
def record (mem : ℕ → UInt8) (i : ℕ) : Abonent where
  name := block mem (fieldAddr i .name) MAX_LEN
  second_name := block mem (fieldAddr i .second_name) MAX_LEN
  tel := block mem (fieldAddr i .tel) MAX_LEN

/-- The book as an array of records. -/
def view (b : RawBook) : ArrayBook := ⟨record b.mem, b.abonent_count⟩

/-- The bytes of the records it holds, in order. -/
def entries (b : RawBook) : List Abonent := (List.range b.abonent_count).map (record b.mem)

/-- The words of each record are typed one record after the other. -/
def addAll (b : RawBook) (ts : List Typed) : RawBook :=
  ts.foldl (fun b t => b.addAbonent (some t.name) (some t.second_name) (some t.tel)) b

/-- Each record added is read as the words typed for it, cut to what the prompts ask for, and none
changes those in the book. -/
structure Stored (b : RawBook) (ts : List Typed) : Prop where
  typed : ∀ (i : ℕ) (t : Typed), ts[i]? = some t → b.abonent_count + i < MAX_ABONENTS → ∀ f,
    IsStr (b.addAll ts).mem (fieldAddr (b.abonent_count + i) f) ((t.word f).take (MAX_LEN - 1))
  others : ∀ ts₁ ts₂ : List Typed, ts = ts₁ ++ ts₂ →
    (b.addAll ts₁).entries <+: (b.addAll ts).entries

/-- At most `MAX_LEN - 1` characters; where a zero byte is typed, it ends as many. -/
def Fits (w : List UInt8) : Prop :=
  0 ∉ w.take (MAX_LEN - 1) ∧ (w.length ≤ MAX_LEN - 1 ∨ w[MAX_LEN - 1]? = some 0)

end RawBook

end EltexSystems
