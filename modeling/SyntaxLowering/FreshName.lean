/-!
# Fresh variable names

Temporaries are named by a stem and a number. A `NameSupply` serves a whole run over many files:
its counters belong to the file it was last asked about and start again with the next one. A name
is passed over if it is reserved or was given out before in the same file, under any stem, so that
stems such as `t` and `t1` never lead to the same variable.
-/

namespace SyntaxLowering

/-- What a file is known by. -/
abbrev FileId := String

/-- The names given out in the current file. -/
structure NameSupply where
  /-- The file that the other fields belong to. -/
  file : Option FileId := none
  /-- The last number tried with each stem. -/
  counters : List (String × Nat) := []
  /-- Every name given out, under any stem. -/
  issued : List String := []
deriving DecidableEq, Repr

/-- The name made of a stem and a number. -/
def numbered (stem : String) (n : Nat) : String :=
  stem ++ n.repr

/-- The first number from `n` on that is not taken, if there is one among the next `bound`. -/
def firstFree (taken : Nat → Bool) : (bound n : Nat) → Nat
  | 0, n => n
  | bound + 1, n => if taken n then firstFree taken bound (n + 1) else n

namespace NameSupply

/-- The last number tried with a stem. -/
def counter (s : NameSupply) (stem : String) : Nat :=
  (s.counters.lookup stem).getD 0

/-- The supply for a file: the same as before in the file at hand, a new one in any other. -/
def enter (s : NameSupply) (file : FileId) : NameSupply :=
  if s.file = some file then s else { file := some file }

/-- The least number above the counter of a stem whose name is neither reserved nor issued. There
are no more taken names than reserved and issued ones together, so the search is bounded. -/
def nextNumber (s : NameSupply) (stem : String) (reserved : List String) : Nat :=
  firstFree (fun n => reserved.contains (numbered stem n) || s.issued.contains (numbered stem n))
    (reserved.length + s.issued.length) (s.counter stem + 1)

/-- The supply after the name with number `n` was given out. -/
def issue (s : NameSupply) (stem : String) (n : Nat) : NameSupply :=
  { s with
    counters := (stem, n) :: s.counters.filter (·.1 != stem)
    issued := numbered stem n :: s.issued }

/-- A new name for a file. -/
def allocate (s : NameSupply) (file : FileId) (stem : String) (reserved : List String) :
    String × NameSupply :=
  let s := s.enter file
  let n := s.nextNumber stem reserved
  (numbered stem n, s.issue stem n)

end NameSupply

end SyntaxLowering
