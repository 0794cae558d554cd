import Mathlib.Logic.Function.Iterate
import EltexSystems.Lib.Scanf
import EltexSystems.RawBook

/-!
# The menu of the phone book

The loop of `functions/functions.c` over a finite standard input, one pass at a time; the texts it
prints are left out.  A word too long for its field lies over what follows in `abonent_book`.  What
lies behind that array, or behind the one of `search_abonent`, is not the source's to say, nor is
what a program does that writes there: such a pass may leave any state, and a property of the loop
is one of all its runs.
-/

namespace EltexSystems

open CStr

/-- The book, the variable `choice` and the input that is left. -/
structure Menu where
  book : RawBook
  choice : ℤ
  input : List UInt8

namespace Menu

/-- `add_abonent`, with the input it leaves. -/
def addAbonent (b : RawBook) (input : List UInt8) : RawBook × List UInt8 :=
  if b.abonent_count ≥ MAX_ABONENTS then (b, input)
  else
    let name := scanStr input
    let second_name := scanStr name.2
    let tel := scanStr second_name.2
    (b.addAbonent name.1 second_name.1 tel.1, tel.2)

/-- `remove_abonent`: its variable `number` starts as 0. -/
def removeAbonent (b : RawBook) (input : List UInt8) : RawBook × List UInt8 :=
  let number := scanInt input
  (b.removeAbonent ((number.1.map intOf).getD 0), number.2)

def searchAbonent (b : RawBook) (input : List UInt8) : RawBook × List UInt8 :=
  (b, (scanStr input).2)

def handleChoice (choice : ℤ) (b : RawBook) (input : List UInt8) : RawBook × List UInt8 :=
  if choice = 1 then addAbonent b input
  else if choice = 2 then removeAbonent b input
  else if choice = 3 then searchAbonent b input
  else (b, input)

/-- The choice a pass acts on. -/
def chosen (s : Menu) : ℤ := ((scanInt s.input).1.map intOf).getD s.choice

/-- A word scanned into a field, with its zero byte, runs past the end of `abonent_book`. -/
def PastBook (i : ℕ) (f : AbonentField) (word : Option (List UInt8)) : Prop :=
  ∃ w, word = some w ∧ MAX_ABONENTS * abonentSize ≤ RawBook.fieldAddr i f + w.length

/-- `add_abonent` writes past the end of `abonent_book`. -/
def AddOverruns (b : RawBook) (input : List UInt8) : Prop :=
  b.abonent_count < MAX_ABONENTS ∧
    (PastBook b.abonent_count .name (scanStr input).1 ∨
      PastBook b.abonent_count .second_name (scanStr (scanStr input).2).1 ∨
      PastBook b.abonent_count .tel (scanStr (scanStr (scanStr input).2).2).1)

/-- `search_abonent` writes past the end of its `name`. -/
def SearchOverruns (input : List UInt8) : Prop :=
  ∃ w, (scanStr input).1 = some w ∧ MAX_LEN ≤ w.length

/-- A pass that writes past the end of an array. -/
def Overruns (s : Menu) : Prop :=
  s.chosen = 1 ∧ AddOverruns s.book (scanInt s.input).2 ∨
    s.chosen = 3 ∧ SearchOverruns (scanInt s.input).2

/-- The body of the loop. -/
def pass (s : Menu) : Menu :=
  let r := handleChoice s.chosen s.book (scanInt s.input).2
  ⟨r.1, s.chosen, r.2⟩

/-- The states between the passes of a run, the first before them all. -/
structure Run (s : Menu) (t : ℕ → Menu) : Prop where
  first : t 0 = s
  next : ∀ n, (t n).Overruns ∨ t (n + 1) = (t n).pass

/-- The run in which every pass does what the source says. -/
def after (s : Menu) (n : ℕ) : Menu := pass^[n] s

/-- The loop makes at least `n` passes. -/
def Makes (t : ℕ → Menu) (n : ℕ) : Prop := ∀ i < n, (t i).choice ≠ 5

/-- The loop ends in every run. -/
def Ends (s : Menu) : Prop := ∀ t, s.Run t → ∃ n, (t n).choice = 5

/-- What is left is white space, or what follows it is neither a number nor asked for as a word. -/
def Stuck (s : Menu) : Prop :=
  match skipSpace s.input with
  | [] => True
  | b :: _ => isdigit b = false ∧ issign b = false ∧ s.choice ≠ 3 ∧
    (s.choice = 1 → s.book.abonent_count ≥ MAX_ABONENTS)

/-- What is typed at the prompt of `remove_abonent`. -/
def answer (s : Menu) : Option ℤ := (scanInt (scanInt s.input).2).1

/-- A token is typed that is no number. -/
def NoNumber (input : List UInt8) : Prop := skipSpace input ≠ [] ∧ (scanInt input).1 = none

/-- A token that is no number is typed at the menu or at the prompt of `remove_abonent`. -/
def Malformed (s : Menu) : Prop :=
  NoNumber s.input ∨ s.chosen = 2 ∧ NoNumber (scanInt s.input).2

/-- The number of a record is typed at the prompt of `remove_abonent`. -/
def RemovalTyped (s : Menu) : Prop :=
  s.chosen = 2 ∧ ∃ k : ℕ, s.answer = some (k : ℤ) ∧ k < s.book.abonent_count

/-- A record is removed only under the number typed, and a malformed token leaves the book as it is
until a removal is typed. -/
structure AsTyped (t : ℕ → Menu) : Prop where
  typed : ∀ n, Makes t (n + 1) →
    (t (n + 1)).book.abonent_count < (t n).book.abonent_count →
      (t n).chosen = 2 ∧ ∃ k : ℕ, (t n).answer = some (k : ℤ) ∧ k < (t n).book.abonent_count ∧
        (t (n + 1)).book.entries = (t n).book.entries.eraseIdx k
  malformed : ∀ m n, m ≤ n → Makes t n → (t m).Malformed →
    (∀ i, m ≤ i → i < n → ¬ (t i).RemovalTyped) → (t n).book.entries = (t m).book.entries

def RemovesAsTyped (s : Menu) : Prop := ∀ t, s.Run t → AsTyped t

/-- No word runs past the end of its array; every removal from a book that is not empty is answered
with an integer, which is not one outside the `int`s that is narrowed to the number of a record; and
no record is added behind a malformed token before a removal is typed. -/
structure WellTyped (s : Menu) : Prop where
  inside : ∀ n, Makes s.after (n + 1) → ¬ (s.after n).Overruns
  removal : ∀ n, Makes s.after (n + 1) → (s.after n).chosen = 2 →
    (s.after n).book.abonent_count ≠ 0 → ∃ v, (s.after n).answer = some v ∧
      (0 ≤ intOf v → intOf v < (s.after n).book.abonent_count → intOf v = v)
  adding : ∀ m n, m ≤ n → Makes s.after (n + 1) → (s.after m).Malformed →
    (∀ i, m ≤ i → i ≤ n → ¬ (s.after i).RemovalTyped) → (s.after n).chosen = 1 →
      (s.after n).book.abonent_count ≥ MAX_ABONENTS

end Menu

end EltexSystems
