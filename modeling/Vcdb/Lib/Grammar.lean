import Mathlib.Data.List.Basic

/-!
# Loaders and grammars

A loader consumes the front of its input and delivers a value, or it fails.  A grammar says which
words carry which values, and which inputs end a loader in a failure that must not happen.
-/

/-- A computation that consumes the front of a list. -/
abbrev Loader (ε τ : Type) := StateT (List τ) (Except ε)

/-- Words with the values they carry, and fatal inputs. -/
structure Grammar (τ α : Type) where
  word : List τ → α → Prop
  fatal : List τ → Prop

namespace Loader

variable {ε τ α β : Type} {loader : Loader ε τ α} {next : α → Loader ε τ β} {input : List τ}

theorem bind_eq_ok {result : β × List τ} :
    (loader >>= next) input = .ok result ↔
      ∃ value rest, loader input = .ok (value, rest) ∧ next value rest = .ok result := by
  change Except.bind (loader input) (fun found => next found.1 found.2) = _ ↔ _
  rcases loader input with failure | ⟨value, rest⟩ <;> simp [Except.bind]

theorem bind_eq_error {failure : ε} :
    (loader >>= next) input = .error failure ↔
      loader input = .error failure ∨
        ∃ value rest, loader input = .ok (value, rest) ∧ next value rest = .error failure := by
  change Except.bind (loader input) (fun found => next found.1 found.2) = _ ↔ _
  rcases loader input with failure' | ⟨value, rest⟩ <;> simp [Except.bind]

/-- Load elements one after the other; the reader of each is handed the one before. -/
def elements (step : α → Loader ε τ α) : Nat → α → Loader ε τ (List α)
  | 0, _ => pure []
  | n + 1, current => do
      let current ← step current
      let rest ← elements step n current
      pure (current :: rest)

/-- Every failure of a loader is of a kind. -/
def FailsAs (kind : ε → Prop) (loader : Loader ε τ α) : Prop :=
  ∀ input failure, loader input = .error failure → kind failure

variable {kind : ε → Prop}

theorem failsAs_pure (value : α) : FailsAs kind (pure value : Loader ε τ α) := by
  intro input failure failed
  cases failed

theorem failsAs_throw {failure : ε} (isKind : kind failure) :
    FailsAs kind (throw failure : Loader ε τ α) := by
  intro input failure' failed
  cases failed
  exact isKind

theorem failsAs_bind (left : FailsAs kind loader) (right : ∀ value, FailsAs kind (next value)) :
    FailsAs kind (loader >>= next) := by
  intro input failure failed
  rcases bind_eq_error.mp failed with first | ⟨value, rest, _, second⟩
  · exact left input failure first
  · exact right value rest failure second

theorem failsAs_ite {condition : Prop} [Decidable condition] {other : Loader ε τ α}
    (left : FailsAs kind loader) (right : FailsAs kind other) :
    FailsAs kind (if condition then loader else other) := by
  split
  · exact left
  · exact right

theorem failsAs_elements {step : α → Loader ε τ α} (each : ∀ current, FailsAs kind (step current))
    (n : Nat) (current : α) : FailsAs kind (elements step n current) := by
  induction n generalizing current with
  | zero => exact failsAs_pure []
  | succ n ih =>
      exact failsAs_bind (each current) fun next =>
        failsAs_bind (ih next) fun rest => failsAs_pure (next :: rest)

end Loader

namespace Grammar

variable {τ α β : Type}

/-- No word, and no fatal input. -/
def empty : Grammar τ α where
  word _ _ := False
  fatal _ := False

/-- The empty word carries the value. -/
def pure (value : α) : Grammar τ α where
  word w found := w = [] ∧ found = value
  fatal _ := False

/-- A word followed by a word that depends on its value. -/
def bind (first : Grammar τ α) (second : α → Grammar τ β) : Grammar τ β where
  word w value := ∃ left right found,
    w = left ++ right ∧ first.word left found ∧ (second found).word right value
  fatal input := first.fatal input ∨
    ∃ left right found, input = left ++ right ∧ first.word left found ∧ (second found).fatal right

/-- A fixed number of words, each read in view of the value before. -/
def elements (step : α → Grammar τ α) : Nat → α → Grammar τ (List α)
  | 0, _ => pure []
  | n + 1, current =>
      (step current).bind fun current =>
        (elements step n current).bind fun rest => pure (current :: rest)

/-- A concatenation of words carries their values. -/
theorem elements_word {step : α → Grammar τ α} {items : List β} {word : β → List τ}
    {value : β → α} (each : ∀ item ∈ items, ∀ current, (step current).word (word item) (value item))
    (start : α) :
    (elements step items.length start).word (items.flatMap word) (items.map value) := by
  induction items generalizing start with
  | nil => exact ⟨rfl, rfl⟩
  | cons item items ih =>
      have later := ih (fun other mem => each other (List.mem_cons_of_mem _ mem)) (value item)
      exact ⟨word item, items.flatMap word, value item, rfl, each item List.mem_cons_self start,
        items.flatMap word, [], items.map value, (List.append_nil _).symm, later, rfl, rfl⟩

section Implementation

variable {ε : Type}

/-- A loader accepts the words of a grammar and fails fatally on its fatal inputs only. -/
structure Implements (isFatal : ε → Prop) (loader : Loader ε τ α) (grammar : Grammar τ α) :
    Prop where
  accepts : ∀ input value rest, loader input = .ok (value, rest) ↔
    ∃ w, input = w ++ rest ∧ grammar.word w value
  fails : ∀ input, (∃ failure, loader input = .error failure ∧ isFatal failure) ↔
    grammar.fatal input

variable {isFatal : ε → Prop}

theorem implements_pure (value : α) :
    Implements isFatal (Pure.pure value : Loader ε τ α) (pure value) where
  accepts input found rest := by
    change Except.ok (value, input) = _ ↔ _
    simp only [Except.ok.injEq, Prod.mk.injEq, pure]
    constructor
    · rintro ⟨rfl, rfl⟩
      exact ⟨[], rfl, rfl, rfl⟩
    · rintro ⟨_, rfl, rfl, rfl⟩
      exact ⟨rfl, rfl⟩
  fails input := by
    change (∃ failure, Except.ok (value, input) = .error failure ∧ _) ↔ False
    simp

theorem implements_throw {failure : ε} (harmless : ¬isFatal failure) :
    Implements isFatal (throw failure : Loader ε τ α) empty where
  accepts input found rest := by
    change Except.error failure = _ ↔ _
    simp [empty]
  fails input := by
    change (∃ failure', Except.error failure = .error failure' ∧ _) ↔ False
    simp only [Except.error.injEq, exists_eq_left', iff_false]
    exact harmless

theorem implements_bind {loader : Loader ε τ α} {next : α → Loader ε τ β} {first : Grammar τ α}
    {second : α → Grammar τ β} (left : Implements isFatal loader first)
    (right : ∀ w value, first.word w value → Implements isFatal (next value) (second value)) :
    Implements isFatal (loader >>= next) (first.bind second) where
  accepts input value rest := by
    rw [Loader.bind_eq_ok]
    constructor
    · rintro ⟨found, middle, loaded, continued⟩
      obtain ⟨w, rfl, isWord⟩ := (left.accepts _ _ _).mp loaded
      obtain ⟨w', rfl, isWord'⟩ := ((right w found isWord).accepts _ _ _).mp continued
      exact ⟨w ++ w', (List.append_assoc _ _ _).symm, w, w', found, rfl, isWord, isWord'⟩
    · rintro ⟨_, rfl, w, w', found, rfl, isWord, isWord'⟩
      exact ⟨found, w' ++ rest,
        (left.accepts _ _ _).mpr ⟨w, List.append_assoc _ _ _, isWord⟩,
        ((right w found isWord).accepts _ _ _).mpr ⟨w', rfl, isWord'⟩⟩
  fails input := by
    simp only [Loader.bind_eq_error]
    constructor
    · rintro ⟨failure, failed | ⟨found, rest, loaded, failed⟩, fatal⟩
      · exact Or.inl ((left.fails input).mp ⟨failure, failed, fatal⟩)
      · obtain ⟨w, rfl, isWord⟩ := (left.accepts _ _ _).mp loaded
        exact Or.inr ⟨w, rest, found, rfl, isWord,
          ((right w found isWord).fails rest).mp ⟨failure, failed, fatal⟩⟩
    · rintro (fatal | ⟨w, rest, found, rfl, isWord, fatal⟩)
      · obtain ⟨failure, failed, fatal⟩ := (left.fails input).mpr fatal
        exact ⟨failure, Or.inl failed, fatal⟩
      · obtain ⟨failure, failed, fatal⟩ := ((right w found isWord).fails rest).mpr fatal
        have loaded : loader (w ++ rest) = .ok (found, rest) :=
          (left.accepts _ _ _).mpr ⟨w, rfl, isWord⟩
        exact ⟨failure, Or.inr ⟨found, rest, loaded, failed⟩, fatal⟩

theorem implements_elements {step : α → Loader ε τ α} {words : α → Grammar τ α}
    (each : ∀ current, Implements isFatal (step current) (words current)) (n : Nat) (current : α) :
    Implements isFatal (Loader.elements step n current) (elements words n current) := by
  induction n generalizing current with
  | zero => exact implements_pure []
  | succ n ih =>
      exact implements_bind (each current) fun _ next _ =>
        implements_bind (ih next) fun _ rest _ => implements_pure (next :: rest)

/-- Whether a loader fails fatally depends on the input alone. -/
theorem Implements.not_fatal_iff {loader : Loader ε τ α} {grammar : Grammar τ α}
    (implements : Implements isFatal loader grammar) (input : List τ) :
    (∀ failure, loader input = .error failure → ¬isFatal failure) ↔ ¬grammar.fatal input := by
  rw [← implements.fails input]
  push Not
  rfl

end Implementation

end Grammar
