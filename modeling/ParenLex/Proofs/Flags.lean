import Mathlib.Data.List.Infix
import ParenLex.Settings

/-!
# Flags are shared by copies

Holders of flags and settings with a flag attached come from one another by copying and attaching,
back to the operation that made the flag. A flag raised through one of them is raised for all that
come from the same operation, and for no others. What else is set for settings is theirs alone: a
copy has it as it was when the copy was made.

* `settings_apply`, `holders_apply`: what an operation makes, and what it does to what there is.
* `stems_iff`: who has which flag.
* `raised_iff`: which flags have been raised.
* `last_iff`: what has been set.
* `flags_shared`: all of it after any history.
-/

namespace ParenLex

namespace Registry

/-- The registry after a history of operations, the latest of them first. -/
def after : List Op → Registry
  | [] => empty
  | op :: past => (after past).apply op

/-! ### Histories -/

/-- The number of settings that a history has made. They are numbered as they are made. -/
def settingsMade : List Op → Nat
  | [] => 0
  | .newSettings :: past => settingsMade past + 1
  | .cloneSettings i :: past =>
    if i < settingsMade past then settingsMade past + 1 else settingsMade past
  | _ :: past => settingsMade past

/-- The number of holders that a history has made. They are numbered as they are made. -/
def holdersMade : List Op → Nat
  | [] => 0
  | .newFlag :: past => holdersMade past + 1
  | .cloneFlag h :: past =>
    if h < holdersMade past then holdersMade past + 1 else holdersMade past
  | _ :: past => holdersMade past

/-- Somebody who may have a flag. -/
inductive Party
  | holder (h : Nat)
  | settings (i : Nat)

/-- An operation attaches another flag. -/
def Replaces (past : List Op) (op : Op) (x : Party) : Prop :=
  ∃ i h, op = .attach i h ∧ h < holdersMade past ∧ x = .settings i

/-- **The flag of a party stems from an operation**: the one that made a new flag after `n` others,
from which it has come to the party through copies and attachments. -/
inductive Stems : List Op → Party → Nat → Prop
  | newFlag (past : List Op) :
      Stems (.newFlag :: past) (.holder (holdersMade past)) (past.count .newFlag)
  | cloneFlag {past : List Op} {h n : Nat} : Stems past (.holder h) n →
      Stems (.cloneFlag h :: past) (.holder (holdersMade past)) n
  | attach {past : List Op} {i h n : Nat} : Stems past (.holder h) n → i < settingsMade past →
      Stems (.attach i h :: past) (.settings i) n
  | cloneSettings {past : List Op} {i n : Nat} : Stems past (.settings i) n →
      Stems (.cloneSettings i :: past) (.settings (settingsMade past)) n
  | keep {past : List Op} {op : Op} {x : Party} {n : Nat} : Stems past x n →
      ¬ Replaces past op x → Stems (op :: past) x n

/-- **Two parties are related** if their flags stem from the same operation. -/
def Related (ops : List Op) (x y : Party) : Prop := ∃ n, Stems ops x n ∧ Stems ops y n

/-- **The flag of a party has been raised** through a holder related to it. -/
def RaisedFor (ops : List Op) (x : Party) : Prop :=
  ∃ past h, .raise h :: past <:+ ops ∧ h < holdersMade past ∧ Related ops x (.holder h)

/-- The settings to which an operation gives a capacity. -/
def setsCapacity : Op → Option (Nat × Option Nat)
  | .setCapacity i n => some (i, some n)
  | _ => none

/-- The settings for which an operation says whether the end is sent after an error. -/
def setsEofAfterError : Op → Option (Nat × Bool)
  | .setEofAfterError i b => some (i, b)
  | _ => none

variable {α : Type}

/-- No operation of a history sets anything for these settings. -/
def Untouched (sets : Op → Option (Nat × α)) (i : Nat) (ops : List Op) : Prop :=
  ∀ op ∈ ops, ∀ v, sets op ≠ some (i, v)

/-- **What was set last** for settings, by operations that set it: it is what new settings have,
what the original had when they were copied from it, or what the last of the operations has set. -/
inductive Last (sets : Op → Option (Nat × α)) (fresh : α) : List Op → Nat → α → Prop
  | made {later past : List Op} : Untouched sets (settingsMade past) later →
      Last sets fresh (later ++ .newSettings :: past) (settingsMade past) fresh
  | copied {later past : List Op} {i : Nat} {v : α} : Last sets fresh past i v →
      Untouched sets (settingsMade past) later →
      Last sets fresh (later ++ .cloneSettings i :: past) (settingsMade past) v
  | set {later past : List Op} {op : Op} {i : Nat} {v : α} : i < settingsMade past →
      sets op = some (i, v) → Untouched sets i later →
      Last sets fresh (later ++ op :: past) i v

/-! ### Operations -/

variable {r : Registry} {op : Op} {x : Party} {f : Flag} {s : Settings} {ops past : List Op}
  {h i n : Nat}

/-- The settings that an operation makes. -/
def made? (r : Registry) : Op → Option Settings
  | .newSettings => some .default
  | .cloneSettings i => r.settings[i]?
  | _ => none

/-- What an operation does to the settings of number `k`. -/
def edit (r : Registry) (op : Op) (k : Nat) (s : Settings) : Settings :=
  match op with
  | .setCapacity i n => if i = k then s.withCapacity n else s
  | .setEofAfterError i b => if i = k then s.withEofAfterError b else s
  | .attach i h => if i = k then (r.holders[h]?.map s.withFlag).getD s else s
  | _ => s

/-- The holder that an operation makes, by its flag. -/
def madeHolder? (r : Registry) : Op → Option Flag
  | .newFlag => some ⟨r.flags⟩
  | .cloneFlag h => r.holders[h]?
  | _ => none

/-- An operation that makes settings. -/
theorem settings_made (makes : (r.apply op).settings = r.settings.push s)
    (made : r.made? op = some s) (edits : ∀ k s, r.edit op k s = s) (k : Nat) :
    (r.apply op).settings[k]? =
      if k = r.settings.size then r.made? op else r.settings[k]?.map (r.edit op k) := by
  have same : r.edit op k = id := funext (edits k)
  rw [makes, made, same, Option.map_id, Array.getElem?_push, id]

/-- An operation that changes no settings. -/
theorem settings_kept (keeps : (r.apply op).settings = r.settings) (made : r.made? op = none)
    (edits : ∀ k s, r.edit op k s = s) (k : Nat) : (r.apply op).settings[k]? =
      if k = r.settings.size then r.made? op else r.settings[k]?.map (r.edit op k) := by
  have same : r.edit op k = id := funext (edits k)
  rw [keeps, made, same, Option.map_id, id]
  by_cases hk : k = r.settings.size <;> simp [hk]

/-- An operation that changes the settings of one number. -/
theorem settings_modified {g : Settings → Settings}
    (modifies : (r.apply op).settings = r.settings.modify i g) (made : r.made? op = none)
    (edits : ∀ k s, r.edit op k s = if i = k then g s else s) (k : Nat) :
    (r.apply op).settings[k]? =
      if k = r.settings.size then r.made? op else r.settings[k]?.map (r.edit op k) := by
  have same : r.edit op k = fun s => if i = k then g s else s := funext (edits k)
  rw [modifies, made, same, Array.getElem?_modify]
  by_cases hk : k = r.settings.size
  · simp [hk]
  · by_cases hi : i = k <;> simp [hk, hi]

/-- **An operation makes settings at the end, or edits those that there are.** -/
theorem settings_apply (r : Registry) (op : Op) (k : Nat) : (r.apply op).settings[k]? =
    if k = r.settings.size then r.made? op else r.settings[k]?.map (r.edit op k) := by
  cases op with
  | newSettings => exact settings_made rfl rfl (fun _ _ => rfl) k
  | cloneSettings i =>
    cases hi : r.settings[i]? with
    | none =>
      have keeps : (r.apply (.cloneSettings i)).settings = r.settings := by simp [apply, hi]
      exact settings_kept keeps hi (fun _ _ => rfl) k
    | some s =>
      have makes : (r.apply (.cloneSettings i)).settings = r.settings.push s := by simp [apply, hi]
      exact settings_made makes hi (fun _ _ => rfl) k
  | setCapacity i n => exact settings_modified rfl rfl (fun _ _ => rfl) k
  | setEofAfterError i b => exact settings_modified rfl rfl (fun _ _ => rfl) k
  | attach i h =>
    cases hf : r.holders[h]? with
    | none =>
      have keeps : (r.apply (.attach i h)).settings = r.settings := by simp [apply, hf]
      exact settings_kept keeps rfl (by simp [edit, hf]) k
    | some f =>
      have modifies : (r.apply (.attach i h)).settings = r.settings.modify i (·.withFlag f) := by
        simp [apply, hf]
      exact settings_modified modifies rfl (by simp [edit, hf]) k
  | newFlag => exact settings_kept rfl rfl (fun _ _ => rfl) k
  | cloneFlag h =>
    have keeps : (r.apply (.cloneFlag h)).settings = r.settings := by
      cases hf : r.holders[h]? <;> simp [apply, hf]
    exact settings_kept keeps rfl (fun _ _ => rfl) k
  | raise h =>
    have keeps : (r.apply (.raise h)).settings = r.settings := by
      cases hf : r.holders[h]? <;> simp [apply, hf]
    exact settings_kept keeps rfl (fun _ _ => rfl) k

/-- An operation that makes no holder. -/
theorem holders_kept (keeps : (r.apply op).holders = r.holders) (made : r.madeHolder? op = none)
    (k : Nat) : (r.apply op).holders[k]? =
      if k = r.holders.size then r.madeHolder? op else r.holders[k]? := by
  rw [keeps, made]
  by_cases hk : k = r.holders.size <;> simp [hk]

/-- **So it does with holders, and leaves those that there are.** -/
theorem holders_apply (r : Registry) (op : Op) (k : Nat) : (r.apply op).holders[k]? =
    if k = r.holders.size then r.madeHolder? op else r.holders[k]? := by
  cases op with
  | newFlag => exact Array.getElem?_push
  | cloneFlag h =>
    cases hf : r.holders[h]? with
    | none =>
      have keeps : (r.apply (.cloneFlag h)).holders = r.holders := by simp [apply, hf]
      exact holders_kept keeps hf k
    | some f => simp [apply, madeHolder?, hf, Array.getElem?_push]
  | cloneSettings i =>
    have keeps : (r.apply (.cloneSettings i)).holders = r.holders := by
      cases hi : r.settings[i]? <;> simp [apply, hi]
    exact holders_kept keeps rfl k
  | attach i h =>
    have keeps : (r.apply (.attach i h)).holders = r.holders := by
      cases hf : r.holders[h]? <;> simp [apply, hf]
    exact holders_kept keeps rfl k
  | raise h =>
    have keeps : (r.apply (.raise h)).holders = r.holders := by
      cases hf : r.holders[h]? <;> simp [apply, hf]
    exact holders_kept keeps rfl k
  | newSettings | setCapacity i n | setEofAfterError i b => exact holders_kept rfl rfl k

theorem settings_size_after (ops : List Op) : (after ops).settings.size = settingsMade ops := by
  induction ops with
  | nil => rfl
  | cons op past ih =>
    cases op with
    | newSettings => simp [after, apply, settingsMade, ih]
    | cloneSettings i =>
      by_cases hi : i < settingsMade past <;> simp [after, apply, settingsMade, hi, ih]
    | setCapacity i n | setEofAfterError i b | newFlag => simp [after, apply, settingsMade, ih]
    | attach i h | cloneFlag h | raise h =>
      simp only [after, apply, settingsMade]
      split <;> simp [ih]

theorem holders_size_after (ops : List Op) : (after ops).holders.size = holdersMade ops := by
  induction ops with
  | nil => rfl
  | cons op past ih =>
    cases op with
    | newFlag => simp [after, apply, holdersMade, ih]
    | cloneFlag h =>
      by_cases hh : h < holdersMade past <;> simp [after, apply, holdersMade, hh, ih]
    | newSettings | setCapacity i n | setEofAfterError i b => simp [after, apply, holdersMade, ih]
    | attach i h | cloneSettings i | raise h =>
      simp only [after, apply, holdersMade]
      split <;> simp [ih]

theorem flags_after (ops : List Op) : (after ops).flags = ops.count .newFlag := by
  induction ops with
  | nil => rfl
  | cons op past ih =>
    cases op with
    | newSettings | setCapacity i n | setEofAfterError i b | newFlag => simp [after, apply, ih]
    | attach i h | cloneSettings i | cloneFlag h | raise h =>
      simp only [after, apply]
      split <;> simp [ih]

/-! ### Who has which flag -/

/-- The flag of a party. -/
def flagOf (r : Registry) : Party → Option Flag
  | .holder h => r.holders[h]?
  | .settings i => r.settings[i]?.bind Settings.flag

/-- Nothing is attached to a holder. -/
theorem not_replaces_holder : ¬ Replaces past op (.holder h) := by
  rintro ⟨i, k, -, -, hi⟩
  cases hi

/-- Settings keep their flag unless another one is attached. -/
theorem edit_flag (hop : ¬ Replaces past op (.settings i)) :
    ((after past).edit op i s).flag = s.flag := by
  cases op with
  | attach k h =>
    by_cases hk : k = i
    · have hh : (after past).holders[h]? = none := by
        rw [Array.getElem?_eq_none_iff, holders_size_after]
        by_contra hh
        exact hop ⟨k, h, rfl, by omega, by rw [hk]⟩
      simp [edit, hh]
    · simp [edit, hk]
  | setCapacity k n | setEofAfterError k b =>
    simp only [edit]
    split <;> rfl
  | newSettings | cloneSettings k | newFlag | cloneFlag h | raise h => rfl

/-- **A party keeps its flag** through operations that attach no other. -/
theorem flagOf_keep (hx : (after past).flagOf x = some f) (hop : ¬ Replaces past op x) :
    (after (op :: past)).flagOf x = some f := by
  cases x with
  | holder h =>
    have hh : h < (after past).holders.size := (Array.getElem?_eq_some_iff.1 hx).1
    rw [after, flagOf, holders_apply, if_neg (by omega)]
    exact hx
  | settings i =>
    obtain ⟨s, hs, hf⟩ := Option.bind_eq_some_iff.1 hx
    have hi : i < (after past).settings.size := (Array.getElem?_eq_some_iff.1 hs).1
    rw [after, flagOf, settings_apply, if_neg (by omega), hs, Option.map_some, Option.bind_some,
      edit_flag hop, hf]

theorem flagOf_of_stems (h : Stems ops x n) : (after ops).flagOf x = some ⟨n⟩ := by
  induction h with
  | newFlag past =>
    rw [after, flagOf, holders_apply, if_pos (holders_size_after past).symm, madeHolder?,
      flags_after]
  | cloneFlag _ ih =>
    rw [after, flagOf, holders_apply, if_pos (holders_size_after _).symm]
    exact ih
  | @attach past i h n _ hi ih =>
    rw [← settings_size_after] at hi
    have hh : (after past).holders[h]? = some ⟨n⟩ := ih
    rw [after, flagOf, settings_apply, if_neg (by omega), Array.getElem?_eq_getElem hi]
    simp [edit, hh, Settings.withFlag]
  | cloneSettings _ ih =>
    rw [after, flagOf, settings_apply, if_pos (settings_size_after _).symm]
    exact ih
  | keep _ hop ih => exact flagOf_keep ih hop

/-- A holder has been made by the latest operation, or before it. -/
theorem stems_of_holder (ih : ∀ {x n}, (after past).flagOf x = some ⟨n⟩ → Stems past x n)
    (hh : (after (op :: past)).flagOf (.holder h) = some ⟨n⟩) :
    Stems (op :: past) (.holder h) n := by
  rw [after, flagOf, holders_apply, holders_size_after] at hh
  by_cases hlast : h = holdersMade past
  · rw [if_pos hlast] at hh
    subst hlast
    cases op with
    | newFlag =>
      obtain rfl : (after past).flags = n := by simpa [madeHolder?] using hh
      rw [flags_after]
      exact .newFlag past
    | cloneFlag k => exact .cloneFlag (ih hh)
    | _ => simp [madeHolder?] at hh
  · rw [if_neg hlast] at hh
    have hpast : (after past).flagOf (.holder h) = some ⟨n⟩ := hh
    exact (ih hpast).keep not_replaces_holder

/-- Settings have been made by the latest operation, or got their flag by it, or had it before. -/
theorem stems_of_settings (ih : ∀ {x n}, (after past).flagOf x = some ⟨n⟩ → Stems past x n)
    (hi : (after (op :: past)).flagOf (.settings i) = some ⟨n⟩) :
    Stems (op :: past) (.settings i) n := by
  rw [after, flagOf, settings_apply, settings_size_after] at hi
  by_cases hlast : i = settingsMade past
  · rw [if_pos hlast] at hi
    subst hlast
    cases op with
    | newSettings => simp [made?, Settings.default] at hi
    | cloneSettings k => exact .cloneSettings (ih hi)
    | _ => simp [made?] at hi
  · rw [if_neg hlast] at hi
    obtain ⟨s', hs', hf⟩ := Option.bind_eq_some_iff.1 hi
    obtain ⟨s, hs, rfl⟩ := Option.map_eq_some_iff.1 hs'
    by_cases hop : Replaces past op (.settings i)
    · obtain ⟨k, h, rfl, hh, hk⟩ := hop
      cases hk
      have hmade : i < (after past).settings.size := (Array.getElem?_eq_some_iff.1 hs).1
      rw [settings_size_after] at hmade
      rw [← holders_size_after] at hh
      have hholder : (after past).flagOf (.holder h) = some ⟨n⟩ := by
        rw [flagOf, Array.getElem?_eq_getElem hh]
        simpa [edit, hh, Settings.withFlag] using hf
      exact .attach (ih hholder) hmade
    · rw [edit_flag hop] at hf
      have hpast : (after past).flagOf (.settings i) = some ⟨n⟩ := by
        rw [flagOf, hs, Option.bind_some, hf]
      exact .keep (ih hpast) hop

/-- **The flag of a party is the one made by the operation from which it stems.** -/
theorem stems_iff : Stems ops x n ↔ (after ops).flagOf x = some ⟨n⟩ := by
  refine ⟨flagOf_of_stems, ?_⟩
  induction ops generalizing x n with
  | nil => cases x <;> simp [after, flagOf, empty]
  | cons op past ih =>
    intro hx
    cases x with
    | holder h => exact stems_of_holder ih hx
    | settings i => exact stems_of_settings ih hx

/-! ### Which flags have been raised -/

theorem isRaised_apply : (r.apply op).isRaised f = true ↔
    r.isRaised f = true ∨ ∃ h, op = .raise h ∧ r.holders[h]? = some f := by
  cases op with
  | raise h =>
    cases hh : r.holders[h]? with
    | none => simp [apply, isRaised, hh]
    | some g => simp [apply, isRaised, hh, or_comm, @eq_comm _ g f]
  | cloneSettings i => cases hi : r.settings[i]? <;> simp [apply, isRaised, hi]
  | attach i h | cloneFlag h => cases hh : r.holders[h]? <;> simp [apply, isRaised, hh]
  | newSettings | setCapacity i n | setEofAfterError i b | newFlag => simp [apply, isRaised]

/-- **A flag has been raised if an operation has raised it through a holder.** -/
theorem raised_iff : (after ops).isRaised ⟨n⟩ = true ↔
    ∃ past h, .raise h :: past <:+ ops ∧ Stems past (.holder h) n := by
  induction ops with
  | nil => simp [after, empty, isRaised]
  | cons op past ih =>
    rw [after, isRaised_apply, ih]
    constructor
    · rintro (⟨past', h, hsuffix, hstems⟩ | ⟨h, rfl, hh⟩)
      · exact ⟨past', h, List.suffix_cons_iff.2 (.inr hsuffix), hstems⟩
      · exact ⟨past, h, List.suffix_rfl, stems_iff.2 hh⟩
    · rintro ⟨past', h, hsuffix, hstems⟩
      obtain heq | hsuffix := List.suffix_cons_iff.1 hsuffix
      · cases heq
        exact .inr ⟨h, rfl, stems_iff.1 hstems⟩
      · exact .inl ⟨past', h, hsuffix, hstems⟩

theorem Stems.holder_of_suffix (hstems : Stems past (.holder h) n) (hsuffix : past <:+ ops) :
    Stems ops (.holder h) n := by
  obtain ⟨later, rfl⟩ := hsuffix
  induction later with
  | nil => exact hstems
  | cons op later ih => exact ih.keep not_replaces_holder

/-- **The flag of a party has been raised if it has been raised for the party.** -/
theorem raisedFor_iff : RaisedFor ops x ↔
    ∃ f, (after ops).flagOf x = some f ∧ (after ops).isRaised f = true := by
  constructor
  · rintro ⟨past, h, hsuffix, hh, n, hx, hn⟩
    rw [← holders_size_after] at hh
    have hpast : Stems past (.holder h) (after past).holders[h].id := by
      rw [stems_iff]
      exact Array.getElem?_eq_getElem hh
    have hops := hpast.holder_of_suffix ((List.suffix_cons _ _).trans hsuffix)
    obtain rfl : n = (after past).holders[h].id := by
      simpa using (stems_iff.1 hn).symm.trans (stems_iff.1 hops)
    exact ⟨_, stems_iff.1 hx, raised_iff.2 ⟨past, h, hsuffix, hpast⟩⟩
  · rintro ⟨⟨n⟩, hx, hraised⟩
    obtain ⟨past, h, hsuffix, hpast⟩ := raised_iff.1 hraised
    have hops := hpast.holder_of_suffix ((List.suffix_cons _ _).trans hsuffix)
    have hh : h < (after past).holders.size := (Array.getElem?_eq_some_iff.1 (stems_iff.1 hpast)).1
    rw [holders_size_after] at hh
    exact ⟨past, h, hsuffix, hh, n, stems_iff.2 hx, hops⟩

/-! ### What has been set -/

variable {sets : Op → Option (Nat × α)} {get : Settings → α} {fresh v : α} {later : List Op}

/-- **What operations set** is what is got from the settings, and other operations leave it. -/
structure Tracks (sets : Op → Option (Nat × α)) (get : Settings → α) : Prop where
  set : ∀ {r : Registry} {op i v s}, sets op = some (i, v) → get (r.edit op i s) = v
  keep : ∀ {r : Registry} {op i s}, (∀ v, sets op ≠ some (i, v)) → get (r.edit op i s) = get s

theorem tracks_capacity : Tracks setsCapacity Settings.capacity where
  set {r op i v s} h := by
    cases op with
    | setCapacity k n =>
      obtain ⟨rfl, rfl⟩ : k = i ∧ some n = v := by simpa [setsCapacity] using h
      simp [edit, Settings.withCapacity]
    | _ => simp [setsCapacity] at h
  keep {r op i s} h := by
    cases op with
    | setCapacity k n =>
      have hk : k ≠ i := by simpa [setsCapacity] using h
      simp [edit, hk]
    | setEofAfterError k b =>
      simp only [edit]
      split <;> rfl
    | attach k holder =>
      simp only [edit]
      split
      · cases r.holders[holder]? <;> rfl
      · rfl
    | _ => rfl

theorem tracks_eofAfterError : Tracks setsEofAfterError Settings.eofAfterError where
  set {r op i v s} h := by
    cases op with
    | setEofAfterError k b =>
      obtain ⟨rfl, rfl⟩ : k = i ∧ b = v := by simpa [setsEofAfterError] using h
      simp [edit, Settings.withEofAfterError]
    | _ => simp [setsEofAfterError] at h
  keep {r op i s} h := by
    cases op with
    | setEofAfterError k b =>
      have hk : k ≠ i := by simpa [setsEofAfterError] using h
      simp [edit, hk]
    | setCapacity k n =>
      simp only [edit]
      split <;> rfl
    | attach k holder =>
      simp only [edit]
      split
      · cases r.holders[holder]? <;> rfl
      · rfl
    | _ => rfl

/-- After a history, the settings of number `i` have the value `v`. -/
def Has (get : Settings → α) (ops : List Op) (i : Nat) (v : α) : Prop :=
  ∃ s, (after ops).settings[i]? = some s ∧ get s = v

theorem Has.edit (op : Op) (h : Has get past i v) :
    ∃ s, (after (op :: past)).settings[i]? = some ((after past).edit op i s) ∧ get s = v := by
  obtain ⟨s, hs, hv⟩ := h
  have hi : i < (after past).settings.size := (Array.getElem?_eq_some_iff.1 hs).1
  refine ⟨s, ?_, hv⟩
  rw [after, settings_apply, if_neg (by omega), hs, Option.map_some]

theorem Has.append (ht : Tracks sets get) (h : Has get past i v) (hlater : Untouched sets i later) :
    Has get (later ++ past) i v := by
  induction later with
  | nil => exact h
  | cons op later ih =>
    obtain ⟨hop, hlater⟩ := List.forall_mem_cons.1 hlater
    obtain ⟨s, hs, hv⟩ := (ih hlater).edit op
    exact ⟨_, hs, (ht.keep hop).trans hv⟩

theorem Last.keep (h : Last sets fresh past i v) (hop : ∀ w, sets op ≠ some (i, w)) :
    Last sets fresh (op :: past) i v := by
  cases h with
  | made hlater => exact .made (List.forall_mem_cons.2 ⟨hop, hlater⟩)
  | copied hlast hlater => exact .copied hlast (List.forall_mem_cons.2 ⟨hop, hlater⟩)
  | set hi hset hlater => exact .set hi hset (List.forall_mem_cons.2 ⟨hop, hlater⟩)

theorem has_of_last (ht : Tracks sets get) (h : Last sets (get .default) ops i v) :
    Has get ops i v := by
  induction h with
  | made hlater =>
    refine Has.append ht ⟨.default, ?_, rfl⟩ hlater
    rw [after, settings_apply, if_pos (settings_size_after _).symm, made?]
  | copied _ hlater ih =>
    obtain ⟨s, hs, hv⟩ := ih
    refine Has.append ht ⟨s, ?_, hv⟩ hlater
    rw [after, settings_apply, if_pos (settings_size_after _).symm, made?, hs]
  | @set later past op i v hi hset hlater =>
    rw [← settings_size_after] at hi
    have hpast : Has get past i _ := ⟨_, Array.getElem?_eq_getElem hi, rfl⟩
    obtain ⟨s, hs, -⟩ := hpast.edit op
    exact Has.append ht ⟨_, hs, ht.set hset⟩ hlater

/-- **What is got from settings is what was set last.** -/
theorem last_iff (ht : Tracks sets get) : Last sets (get .default) ops i v ↔ Has get ops i v := by
  refine ⟨has_of_last ht, ?_⟩
  -- by the latest operation, which nothing follows
  induction ops generalizing i v with
  | nil => simp [Has, after, empty]
  | cons op past ih =>
    rintro ⟨s', hs', rfl⟩
    rw [after, settings_apply, settings_size_after] at hs'
    have none_later : ∀ k, Untouched sets k [] := by simp [Untouched]
    by_cases hlast : i = settingsMade past
    · rw [if_pos hlast] at hs'
      subst hlast
      cases op with
      | newSettings =>
        obtain rfl : Settings.default = s' := by simpa [made?] using hs'
        exact .made (none_later _)
      | cloneSettings i => exact .copied (ih ⟨s', hs', rfl⟩) (none_later _)
      | _ => simp [made?] at hs'
    · rw [if_neg hlast] at hs'
      obtain ⟨s, hs, rfl⟩ := Option.map_eq_some_iff.1 hs'
      by_cases hop : ∃ w, sets op = some (i, w)
      · obtain ⟨w, hw⟩ := hop
        rw [ht.set hw]
        have hi : i < (after past).settings.size := (Array.getElem?_eq_some_iff.1 hs).1
        rw [settings_size_after] at hi
        exact .set hi hw (none_later i)
      · rw [ht.keep (not_exists.1 hop)]
        exact (ih ⟨s, hs, rfl⟩).keep (not_exists.1 hop)

theorem isRaised_append (later : List Op) (h : (after ops).isRaised f = true) :
    (after (later ++ ops)).isRaised f = true := by
  induction later with
  | nil => exact h
  | cons op later ih => exact raised_apply ih op

/-- **Flags are shared by copies, and by copies alone.** After any history, the flag of a holder, or
of settings, has been raised just where it has been raised through a holder related to it, and it
stays so. The rest of the settings is what was set for them last, or for those they were copied from
before. -/
theorem flags_shared (ops : List Op) :
    let r := after ops
    r.settings.size = settingsMade ops ∧ r.holders.size = holdersMade ops ∧
      (∀ h f, r.holders[h]? = some f → (r.isRaised f = true ↔ RaisedFor ops (.holder h))) ∧
      (∀ i s, r.settings[i]? = some s → (r.isCancelled s = true ↔ RaisedFor ops (.settings i))) ∧
      (∀ later f, r.isRaised f = true → (after (later ++ ops)).isRaised f = true) ∧
      (∀ i v, Last setsCapacity none ops i v ↔ ∃ s, r.settings[i]? = some s ∧ s.capacity = v) ∧
      ∀ i v, Last setsEofAfterError false ops i v ↔
        ∃ s, r.settings[i]? = some s ∧ s.eofAfterError = v := by
  refine ⟨settings_size_after ops, holders_size_after ops, ?_, ?_, ?_, ?_, ?_⟩
  · intro h f hf
    simp [raisedFor_iff, flagOf, hf]
  · intro i s hs
    simp [raisedFor_iff, flagOf, hs, isCancelled, Option.any_eq_true]
  · intro later f hf
    exact isRaised_append later hf
  · intro i v
    exact last_iff tracks_capacity
  · intro i v
    exact last_iff tracks_eofAfterError

/-- A copy keeps the flag that the original has given up for another one. -/
example :
    let r := after [.raise 0, .attach 0 1, .cloneSettings 0, .attach 0 0, .newFlag, .newFlag,
      .newSettings]
    r.settings.toList.map r.isCancelled = [false, true] := by
  decide

end Registry

end ParenLex
