/-!
# Settings of a scan, and flags that they share

Settings name the flag that asks their scan to stop, and do not hold it: copies of settings, and
copies of a flag, stand for the same flag. A registry holds the flags there are and knows which have
been raised.

* `raised_apply`: no operation lowers a flag.
-/

namespace ParenLex

/-- A flag, by its number. -/
structure Flag where
  id : Nat
  deriving DecidableEq

/-- The capacity of the channel (none for an unbounded one), whether the end of the input is sent
after an error, and the flag to stop, if one is attached. -/
structure Settings where
  capacity : Option Nat
  eofAfterError : Bool
  flag : Option Flag
  deriving DecidableEq

namespace Settings

def default : Settings := ⟨none, false, none⟩

def withCapacity (s : Settings) (n : Nat) : Settings := { s with capacity := some n }

def withEofAfterError (s : Settings) (b : Bool) : Settings := { s with eofAfterError := b }

/-- The flag takes the place of one attached before. -/
def withFlag (s : Settings) (f : Flag) : Settings := { s with flag := some f }

end Settings

/-- Settings and flags under their numbers. Two holders may have the same flag. -/
structure Registry where
  settings : Array Settings
  holders : Array Flag
  flags : Nat
  raised : List Flag
  deriving DecidableEq

namespace Registry

/-- What may be done: `i` numbers settings, `h` a holder of a flag. -/
inductive Op
  | newSettings
  | cloneSettings (i : Nat)
  | setCapacity (i n : Nat)
  | setEofAfterError (i : Nat) (b : Bool)
  | attach (i h : Nat)
  | newFlag
  | cloneFlag (h : Nat)
  | raise (h : Nat)
  deriving DecidableEq

def empty : Registry := ⟨#[], #[], 0, []⟩

def isRaised (r : Registry) (f : Flag) : Bool := r.raised.contains f

/-- Whether a scan with these settings is asked to stop. -/
def isCancelled (r : Registry) (s : Settings) : Bool := s.flag.any r.isRaised

/-- What comes of an operation; one on a number that is not there does nothing. -/
def apply (r : Registry) : Op → Registry
  | .newSettings => { r with settings := r.settings.push .default }
  | .cloneSettings i =>
    match r.settings[i]? with
    | some s => { r with settings := r.settings.push s }
    | none => r
  | .setCapacity i n => { r with settings := r.settings.modify i (·.withCapacity n) }
  | .setEofAfterError i b => { r with settings := r.settings.modify i (·.withEofAfterError b) }
  | .attach i h =>
    match r.holders[h]? with
    | some f => { r with settings := r.settings.modify i (·.withFlag f) }
    | none => r
  | .newFlag => { r with holders := r.holders.push ⟨r.flags⟩, flags := r.flags + 1 }
  | .cloneFlag h =>
    match r.holders[h]? with
    | some f => { r with holders := r.holders.push f }
    | none => r
  | .raise h =>
    match r.holders[h]? with
    | some f => { r with raised := f :: r.raised }
    | none => r

theorem raised_apply {r : Registry} {f : Flag} (h : r.isRaised f = true) (op : Op) :
    (r.apply op).isRaised f = true := by
  unfold isRaised at h ⊢
  unfold apply
  split <;> (try split) <;> simp_all

end Registry

end ParenLex
