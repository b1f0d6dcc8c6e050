import Mathlib.Data.List.DropRight
import Mathlib.Data.List.Dedup
import Mathlib.Logic.Function.Basic

/-! # Bounded maps ordered by recency

A recency map lists entries with distinct keys, the most recently pushed last.
Pushing an entry moves its key to the end and keeps only the newest entries up
to a capacity; updating replaces the entry of a listed key where it stands.

Two views of the past go with it: `moveToEnd` orders the keys ever pushed by
their latest push, and `Current` says that each entry is the latest known for
its key.
-/

namespace BBNotifier.Foundation

/-- A long enough final part of a list has the same last elements. -/
theorem rtake_eq_of_suffix {α : Type} {final whole : List α} {count : Nat}
    (h : final <:+ whole) (hlength : count ≤ final.length) :
    final.rtake count = whole.rtake count := by
  obtain ⟨front, rfl⟩ := h
  have hfront : front.drop (front.length + final.length - count) = [] :=
    List.drop_eq_nil_of_le (by omega)
  have hcount : front.length + final.length - count - front.length = final.length - count := by
    omega
  rw [List.rtake, List.rtake, List.length_append, List.drop_append, hfront, hcount,
    List.nil_append]

theorem map_rtake {α β : Type} (f : α → β) (whole : List α) (count : Nat) :
    (whole.rtake count).map f = (whole.map f).rtake count := by
  simp [List.rtake]

section MoveToEnd

variable {Key : Type} [DecidableEq Key]

/-- Move a key to the end of an order, or append it there. -/
def moveToEnd (key : Key) (order : List Key) : List Key :=
  order.filter (· ≠ key) ++ [key]

theorem suffix_moveToEnd {key : Key} {listed order : List Key} (h : listed <:+ order) :
    moveToEnd key listed <:+ moveToEnd key order := by
  obtain ⟨older, rfl⟩ := h
  refine ⟨older.filter (· ≠ key), ?_⟩
  simp [moveToEnd]

/-- Moving a key never shortens an order that lists it at most once. -/
theorem length_le_moveToEnd {key : Key} {order : List Key} (hnodup : order.Nodup) :
    order.length ≤ (moveToEnd key order).length := by
  have hfilter : order.filter (· ≠ key) = order.erase key := by
    rw [hnodup.erase_eq_filter]
    apply List.filter_congr
    intro other _
    rw [Bool.eq_iff_iff]
    simp
  have herase := List.length_erase_add_one (a := key) (l := order)
  rw [moveToEnd, hfilter, List.length_append, List.length_singleton]
  by_cases hmem : key ∈ order
  · rw [herase hmem]
  · rw [List.erase_of_not_mem hmem]
    omega

/-- The distinct members of a list, ordered by last occurrence, after one more
member. -/
theorem dedup_snoc (pushed : List Key) (key : Key) :
    (pushed ++ [key]).dedup = moveToEnd key pushed.dedup := by
  induction pushed with
  | nil => rfl
  | cons head rest ih =>
      by_cases hmem : head ∈ rest
      · rw [List.cons_append, List.dedup_cons_of_mem (List.mem_append_left _ hmem), ih,
          List.dedup_cons_of_mem hmem]
      · by_cases heq : head = key
        · subst head
          -- `dedup` keeps the last of equal members, which is the new one.
          rw [List.cons_append, List.dedup_cons_of_mem (by simp), ih,
            List.dedup_cons_of_notMem hmem]
          simp [moveToEnd]
        · rw [List.cons_append, List.dedup_cons_of_notMem (by simp [hmem, heq]), ih,
            List.dedup_cons_of_notMem hmem]
          simp [moveToEnd, heq]

end MoveToEnd

/-- Entries with distinct keys, the most recently pushed last. -/
structure RecencyMap {Entry Key : Type} (key : Entry → Key) where
  entries : List Entry
  nodup : (entries.map key).Nodup

namespace RecencyMap

variable {Entry Key : Type} [DecidableEq Key] {key : Entry → Key}

/-- The listed keys, in order. -/
def keys (map : RecencyMap key) : List Key := map.entries.map key

/-- The map without entries. -/
def empty : RecencyMap key := ⟨[], List.nodup_nil⟩

/-- Push an entry as the most recent one and keep the newest `capacity`. -/
def push (capacity : Nat) (entry : Entry) (map : RecencyMap key) : RecencyMap key where
  entries := (map.entries.filter (key · ≠ key entry) ++ [entry]).rtake capacity
  nodup := by
    have hrest : ((map.entries.filter (key · ≠ key entry)).map key).Nodup :=
      map.nodup.sublist (List.filter_sublist.map key)
    have hpushed : ((map.entries.filter (key · ≠ key entry) ++ [entry]).map key).Nodup := by
      rw [List.map_append, List.nodup_append']
      refine ⟨hrest, List.nodup_singleton _, ?_⟩
      intro other hother hlast
      obtain ⟨old, hold, rfl⟩ := List.mem_map.mp hother
      simp only [List.map_cons, List.map_nil, List.mem_singleton] at hlast
      simpa [hlast] using (List.mem_filter.mp hold).2
    exact hpushed.sublist ((List.drop_sublist _ _).map key)

/-- Replace the entry listed for the same key, if there is one. -/
def update (entry : Entry) (map : RecencyMap key) : RecencyMap key where
  entries := map.entries.map fun old => if key old = key entry then entry else old
  nodup := by
    have hkeys : (map.entries.map fun old => if key old = key entry then entry else old).map key =
        map.entries.map key := by
      rw [List.map_map]
      apply List.map_congr_left
      intro old _
      by_cases heq : key old = key entry <;> simp [heq]
    rw [hkeys]
    exact map.nodup

@[simp]
theorem keys_update (entry : Entry) (map : RecencyMap key) :
    (map.update entry).keys = map.keys := by
  simp only [keys, update, List.map_map]
  apply List.map_congr_left
  intro old _
  by_cases heq : key old = key entry <;> simp [heq]

/-- Updating a key that is not listed changes nothing. -/
theorem update_entries_of_notMem {entry : Entry} {map : RecencyMap key}
    (hnot : key entry ∉ map.keys) : (map.update entry).entries = map.entries := by
  simp only [update]
  conv_rhs => rw [← List.map_id map.entries]
  apply List.map_congr_left
  intro old hold
  have hne : key old ≠ key entry := fun heq => hnot (heq ▸ List.mem_map_of_mem hold)
  simp [hne]

theorem keys_push (capacity : Nat) (entry : Entry) (map : RecencyMap key) :
    (map.push capacity entry).keys = (moveToEnd (key entry) map.keys).rtake capacity := by
  have hfilter : (map.entries.filter (key · ≠ key entry)).map key =
      map.keys.filter (· ≠ key entry) := by
    rw [keys, List.filter_map]
    rfl
  have hpushed : (map.entries.filter (key · ≠ key entry) ++ [entry]).map key =
      moveToEnd (key entry) map.keys := by
    rw [List.map_append, hfilter]
    rfl
  simp only [keys, push, List.rtake, List.map_drop] at hpushed ⊢
  rw [hpushed, ← hpushed, List.length_map]

theorem length_push_le (capacity : Nat) (entry : Entry) (map : RecencyMap key) :
    (map.push capacity entry).entries.length ≤ capacity := by
  simp only [push, List.rtake, List.length_drop]
  omega

/-- With room for one entry, the pushed entry is the last one. -/
theorem push_getLast {capacity : Nat} (hcapacity : 0 < capacity) (entry : Entry)
    (map : RecencyMap key) : (map.push capacity entry).entries.getLast? = some entry := by
  simp only [push, List.rtake]
  rw [List.getLast?_drop, if_neg (by simp only [List.length_append, List.length_singleton]; omega),
    List.getLast?_concat]

/-! ## The listed keys against all keys pushed -/

/-- Listed keys that end the recency order still end it after a push. -/
theorem keys_push_suffix {capacity : Nat} {entry : Entry} {map : RecencyMap key}
    {order : List Key} (h : map.keys <:+ order) :
    (map.push capacity entry).keys <:+ moveToEnd (key entry) order := by
  rw [keys_push]
  exact (List.drop_suffix _ _).trans (suffix_moveToEnd h)

/-- Under one capacity the listed keys are exactly the most recent ones: a key
is only missing while the map is full. -/
theorem keys_push_eq_rtake {capacity : Nat} {entry : Entry} {map : RecencyMap key}
    {order : List Key} (hnodup : order.Nodup) (h : map.keys = order.rtake capacity) :
    (map.push capacity entry).keys = (moveToEnd (key entry) order).rtake capacity := by
  have hsuffix : order.rtake capacity <:+ order := List.drop_suffix _ _
  rw [keys_push, h]
  by_cases hfull : capacity ≤ order.length
  · -- The list is full, and stays long enough to give the newest `capacity` keys.
    apply rtake_eq_of_suffix (suffix_moveToEnd hsuffix)
    have hlength : (order.rtake capacity).length = capacity := by
      simp only [List.rtake, List.length_drop]
      omega
    exact hlength.symm.le.trans (length_le_moveToEnd (hnodup.sublist hsuffix.sublist))
  · -- Nothing has been evicted yet.
    have hall : order.rtake capacity = order := by
      rw [List.rtake, Nat.sub_eq_zero_of_le (by omega), List.drop_zero]
    rw [hall]

/-! ## The entries against the latest known for each key -/

/-- Every entry is the latest one known for its key. -/
def Current (latest : Key → Option Entry) (map : RecencyMap key) : Prop :=
  ∀ entry ∈ map.entries, latest (key entry) = some entry

theorem Current.push {latest : Key → Option Entry} {map : RecencyMap key}
    (h : map.Current latest) (capacity : Nat) (entry : Entry) :
    (map.push capacity entry).Current (Function.update latest (key entry) (some entry)) := by
  intro listed hlisted
  have hmem := List.mem_of_mem_drop hlisted
  rcases List.mem_append.mp hmem with hold | hnew
  · obtain ⟨hold, hne⟩ := List.mem_filter.mp hold
    rw [Function.update_of_ne (by simpa using hne)]
    exact h listed hold
  · rw [List.mem_singleton.mp hnew, Function.update_self]

theorem Current.update {latest : Key → Option Entry} {map : RecencyMap key}
    (h : map.Current latest) (entry : Entry) :
    (map.update entry).Current (Function.update latest (key entry) (some entry)) := by
  intro listed hlisted
  obtain ⟨old, hold, rfl⟩ := List.mem_map.mp hlisted
  by_cases heq : key old = key entry
  · rw [if_pos heq, Function.update_self]
  · rw [if_neg heq, Function.update_of_ne heq]
    exact h old hold

end RecencyMap

end BBNotifier.Foundation
