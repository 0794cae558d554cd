import EltexSystems.Lib.ForkJoin

/-!
# The process trees

`main` of `processes/task1.c`, a parent that waits for its child's status, and of
`processes/task2.c`, a tree of six processes, as programs that fork and wait.
-/

namespace EltexSystems

open ForkJoin

/-- Who prints in `processes/task1.c`. -/
inductive Task1Name where
  | parent
  | child
  deriving DecidableEq, Repr

/-- `main` of `processes/task1.c`; `wait`'s status is printed if the child has exited. -/
def Task1.main : Prog Task1Name :=
  .fork .child
    (.print .child (.exit 42))
    (.print .parent (.wait (some .parent) (.exit 0)))
    (.exit 1)

/-- Who prints in `processes/task2.c`. -/
inductive Task2Name where
  | parent
  | process1
  | process2
  | process3
  | process4
  | process5
  deriving DecidableEq, Repr

namespace Task2

def printInfo (name : Task2Name) (rest : Prog Task2Name) : Prog Task2Name := .print name rest

/-- `fork() == 0` leads into the child's branch; a `fork` that fails goes on as a parent does. -/
def forked (who : Task2Name) (child rest : Prog Task2Name) : Prog Task2Name :=
  .fork who child rest rest

def leaf (name : Task2Name) : Prog Task2Name := printInfo name (.exit 0)

/-- The branch of the first child. -/
def process1 : Prog Task2Name :=
  printInfo .process1 <| forked .process3 (leaf .process3) <| forked .process4 (leaf .process4) <|
    .wait none <| .wait none <| .exit 0

/-- The branch of the second child. -/
def process2 : Prog Task2Name :=
  printInfo .process2 <| forked .process5 (leaf .process5) <| .wait none <| .exit 0

/-- `main` of `processes/task2.c`. -/
def main : Prog Task2Name :=
  forked .process1 process1 <| forked .process2 process2 <| printInfo .parent <|
    .wait none <| .wait none <| .exit 0

/-- The process that forks each. -/
def creator : Task2Name → Option Task2Name
  | .parent => none
  | .process1 | .process2 => some .parent
  | .process3 | .process4 => some .process1
  | .process5 => some .process2

/-- How often a name is written where no `fork` fails: a buffer not yet written is copied to the
children. -/
def copies (lineBuffered : Bool) : Task2Name → ℕ
  | .process1 => if lineBuffered then 1 else 3
  | .process2 => if lineBuffered then 1 else 2
  | _ => 1

end Task2

end EltexSystems
