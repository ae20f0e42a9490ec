import Mathlib.Logic.Function.Basic
import Mathlib.Order.Lattice

/-!
# A cache of the smallest entries of an index

An index gives values to some keys.  A cache in front of it shows some of them, always all that are
smaller than one it shows, so that the smallest value shown is the smallest there is.
-/

variable {K V : Type*} [LinearOrder V]

/-- The cache shows values of the index, with all the smaller ones. -/
structure Lookahead (cache index : K → Option V) : Prop where
  agrees : ∀ key value, cache key = some value → index key = some value
  complete : ∀ key value, index key = some value →
    (∃ other bound, cache other = some bound ∧ value < bound) → cache key = some value

namespace Lookahead

variable {cache index cache' index' : K → Option V} {key : K} {value : V}

theorem empty (index : K → Option V) : Lookahead (fun _ => none) index where
  agrees _ _ shown := by cases shown
  complete := by
    rintro _ _ _ ⟨_, _, shown, _⟩
    cases shown

/-- The cache shows the entries that come before all others. -/
theorem of_nearest (agrees : ∀ key value, cache key = some value → index key = some value)
    (nearest : ∀ key value, index key = some value → cache key = none →
      ∀ other bound, cache other = some bound → bound ≤ value) : Lookahead cache index where
  agrees := agrees
  complete := by
    rintro key value indexed ⟨other, bound, shown, below⟩
    cases found : cache key with
    | none => exact absurd below (not_lt.mpr (nearest key value indexed found other bound shown))
    | some value' => rw [← indexed, agrees key value' found]

/-- Some keys are removed from the index and from the cache. -/
theorem remove (lookahead : Lookahead cache index) (gone : K → Prop)
    (unshown : ∀ key, gone key → cache' key = none)
    (shown : ∀ key, ¬gone key → cache' key = cache key)
    (unindexed : ∀ key, gone key → index' key = none)
    (indexed : ∀ key, ¬gone key → index' key = index key) : Lookahead cache' index' where
  agrees key value found := by
    by_cases lost : gone key
    · rw [unshown key lost] at found
      cases found
    · rw [indexed key lost]
      exact lookahead.agrees key value (shown key lost ▸ found)
  complete := by
    rintro key value found ⟨other, bound, near, below⟩
    by_cases lost : gone key
    · rw [unindexed key lost] at found
      cases found
    · by_cases lost' : gone other
      · rw [unshown other lost'] at near
        cases near
      · rw [shown key lost]
        exact lookahead.complete key value (indexed key lost ▸ found)
          ⟨other, bound, shown other lost' ▸ near, below⟩

variable [DecidableEq K]

theorem erase (lookahead : Lookahead cache index) (key : K) :
    Lookahead (Function.update cache key none) (Function.update index key none) :=
  lookahead.remove (· = key) (fun _ same => same ▸ Function.update_self _ _ _)
    (fun _ differs => Function.update_of_ne differs _ _)
    (fun _ same => same ▸ Function.update_self _ _ _)
    fun _ differs => Function.update_of_ne differs _ _

/-- A value that is not above all the cache shows is put into both. -/
theorem insert (lookahead : Lookahead cache index)
    (near : ∃ other bound, cache other = some bound ∧ value ≤ bound) :
    Lookahead (Function.update cache key (some value)) (Function.update index key (some value)) where
  agrees other shown found := by
    by_cases same : other = key
    · subst same
      rw [Function.update_self] at found ⊢
      exact found
    · rw [Function.update_of_ne same] at found ⊢
      exact lookahead.agrees other shown found
  complete := by
    rintro other lesser found ⟨greater, bound, shown, below⟩
    by_cases same : other = key
    · subst same
      rw [Function.update_self] at found ⊢
      exact found
    rw [Function.update_of_ne same] at found ⊢
    refine lookahead.complete other lesser found ?_
    by_cases same' : greater = key
    · subst same'
      rw [Function.update_self, Option.some_inj] at shown
      obtain ⟨near, high, shown', above⟩ := near
      exact ⟨near, high, shown', lt_of_lt_of_le (shown ▸ below) above⟩
    · rw [Function.update_of_ne same'] at shown
      exact ⟨greater, bound, shown, below⟩

/-- A value that is above all the cache shows is put into the index only. -/
theorem skip (lookahead : Lookahead cache index)
    (far : ∀ other bound, cache other = some bound → bound ≤ value) :
    Lookahead (Function.update cache key none) (Function.update index key (some value)) where
  agrees other shown found := by
    by_cases same : other = key
    · subst same
      rw [Function.update_self] at found
      cases found
    · rw [Function.update_of_ne same] at found ⊢
      exact lookahead.agrees other shown found
  complete := by
    rintro other lesser found ⟨greater, bound, shown, below⟩
    by_cases same' : greater = key
    · subst same'
      rw [Function.update_self] at shown
      cases shown
    rw [Function.update_of_ne same'] at shown
    by_cases same : other = key
    · subst same
      rw [Function.update_self, Option.some_inj] at found
      subst found
      exact absurd below (not_lt.mpr (far greater bound shown))
    · rw [Function.update_of_ne same] at found ⊢
      exact lookahead.complete other lesser found ⟨greater, bound, shown, below⟩

/-- What comes last in the cache may be dropped from it. -/
theorem drop_greatest (lookahead : Lookahead cache index) (top : cache key = some value)
    (greatest : ∀ other bound, cache other = some bound → bound ≤ value) :
    Lookahead (Function.update cache key none) index where
  agrees other shown found := by
    by_cases same : other = key
    · subst same
      rw [Function.update_self] at found
      cases found
    · rw [Function.update_of_ne same] at found
      exact lookahead.agrees other shown found
  complete := by
    rintro other lesser found ⟨greater, bound, shown, below⟩
    by_cases same' : greater = key
    · subst same'
      rw [Function.update_self] at shown
      cases shown
    rw [Function.update_of_ne same'] at shown
    have kept := lookahead.complete other lesser found ⟨greater, bound, shown, below⟩
    by_cases same : other = key
    · subst same
      rw [top, Option.some_inj] at kept
      subst kept
      exact absurd below (not_lt.mpr (greatest greater bound shown))
    · rw [Function.update_of_ne same]
      exact kept

omit [DecidableEq K] in
/-- The least value shown is the least there is. -/
theorem least (lookahead : Lookahead cache index) (shown : cache key = some value)
    (least : ∀ other bound, cache other = some bound → value ≤ bound) {other : K} {bound : V}
    (indexed : index other = some bound) : value ≤ bound := by
  by_contra below
  rw [not_le] at below
  exact below.not_ge (least other bound
    (lookahead.complete other bound indexed ⟨key, value, shown, below⟩))

end Lookahead
