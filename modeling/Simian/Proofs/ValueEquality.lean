import Mathlib.Data.List.Perm.Subperm
import Simian.Value.Operation

/-!
# Equality of values

Values are compared by what is in them. Hashes are compared one way only, entry by entry of the
first, and by their sizes. As no key comes twice that is as good as both ways, so equality is an
equivalence, the order of entries does not count, and a value is found under a key exactly when
the key is equal to its own.
-/
namespace Simian

/-! ### Entries and items -/

namespace Entries

variable {entries others : List (Key × Value)} {key : Key} {value : Value}

theorem mem_of_find? (h : find? key entries = some value) : (key, value) ∈ entries := by
  induction entries with
  | nil => cases h
  | cons entry rest ih =>
    rw [find?] at h
    split at h
    next hk =>
      cases h
      exact hk ▸ List.mem_cons_self
    next => exact List.mem_cons_of_mem _ (ih h)

theorem find?_eq_none_iff : find? key entries = none ↔ key ∉ entries.map Prod.fst := by
  induction entries with
  | nil => simp [find?]
  | cons entry rest ih =>
    rw [find?, List.map_cons, List.mem_cons, not_or, ← ih]
    split
    next hk => simp [hk]
    next hk => simp [Ne.symm hk]

/-- Where no key comes twice, an entry is what is found under its key. -/
theorem find?_eq_some_iff (h : (entries.map Prod.fst).Nodup) :
    find? key entries = some value ↔ (key, value) ∈ entries := by
  refine ⟨mem_of_find?, fun hm => ?_⟩
  induction entries with
  | nil => cases hm
  | cons entry rest ih =>
    rw [List.map_cons, List.nodup_cons] at h
    rw [find?]
    rcases List.mem_cons.mp hm with rfl | hm
    · rw [if_pos rfl]
    · have hne : entry.1 ≠ key := fun he => h.1 (he ▸ List.mem_map_of_mem hm)
      rw [if_neg hne]
      exact ih h.2 hm

end Entries

namespace Value

theorem allWellFormed_iff {items : List Value} :
    AllWellFormed items ↔ ∀ item ∈ items, item.WellFormed := by
  induction items with
  | nil => simp [AllWellFormed]
  | cons item rest ih => rw [AllWellFormed, ih, List.forall_mem_cons]

theorem entriesWellFormed_iff {entries : List (Key × Value)} :
    EntriesWellFormed entries ↔ ∀ entry ∈ entries, entry.2.WellFormed := by
  induction entries with
  | nil => simp [EntriesWellFormed]
  | cons entry rest ih => rw [EntriesWellFormed, ih, List.forall_mem_cons]

theorem sameItems_iff {items others : List Value} :
    sameItems items others ↔ items.length = others.length ∧
      ∀ (i : Nat) (item other : Value), items[i]? = some item → others[i]? = some other →
        item.same other := by
  induction items generalizing others with
  | nil => cases others <;> simp [sameItems]
  | cons item rest ih =>
    cases others with
    | nil => simp [sameItems]
    | cons other others =>
      rw [sameItems, Bool.and_eq_true, ih, List.length_cons, List.length_cons,
        Nat.add_right_cancel_iff]
      constructor
      · rintro ⟨hfirst, hlength, hrest⟩
        refine ⟨hlength, fun i => ?_⟩
        cases i with
        | zero => simpa using hfirst
        | succ i => simpa using hrest i
      · rintro ⟨hlength, hall⟩
        exact ⟨hall 0 item other rfl rfl, hlength, fun i => hall (i + 1)⟩

theorem sameEntries_iff {entries others : List (Key × Value)} :
    sameEntries entries others ↔ ∀ entry ∈ entries,
      ∃ other, Entries.find? entry.1 others = some other ∧ entry.2.same other := by
  induction entries with
  | nil => simp [sameEntries]
  | cons entry rest ih =>
    rw [List.forall_mem_cons, ← ih, sameEntries]
    split
    next other h => simp [h]
    next h => simp [h]

/-! ### Equality without a direction -/

/-- Equality of values: data by what is in it, with no order among the entries of a hash, and
functions by identity. -/
inductive Equal : Value → Value → Prop
  | null : Equal .null .null
  | int (value : Int64) : Equal (.int value) (.int value)
  | bool (value : Bool) : Equal (.bool value) (.bool value)
  | str (text : String) : Equal (.str text) (.str text)
  | array {items others : List Value} (length : items.length = others.length)
    (equal : ∀ (i : Nat) (item other : Value), items[i]? = some item → others[i]? = some other →
      Equal item other) : Equal (.array items) (.array others)
  | hash {entries others : List (Key × Value)}
    (keys : ∀ key, key ∈ entries.map Prod.fst ↔ key ∈ others.map Prod.fst)
    (equal : ∀ key value other, (key, value) ∈ entries → (key, other) ∈ others →
      Equal value other) : Equal (.hash entries) (.hash others)
  | function {tree other : TreeFunction} (id : tree.id = other.id) :
    Equal (.function tree) (.function other)
  | compiled (id : Nat) (body other : CompiledFunction) :
    Equal (.compiled id body) (.compiled id other)
  | closure (id : Nat) (body other : CompiledFunction) (captured others : List Value) :
    Equal (.closure id body captured) (.closure id other others)
  | builtin (which : Builtin) : Equal (.builtin which) (.builtin which)

theorem Equal.symm {a b : Value} (h : Equal a b) : Equal b a := by
  induction h with
  | array length _ ih =>
    exact .array length.symm fun i item other hitem hother => ih i other item hother hitem
  | hash keys _ ih =>
    exact .hash (fun key => (keys key).symm) fun key value other hvalue hother =>
      ih key other value hother hvalue
  | function id => exact .function id.symm
  | _ => constructor

theorem Equal.trans {a b c : Value} (h : Equal a b) (h' : Equal b c) : Equal a c := by
  induction h generalizing c with
  | @array items between length _ ih =>
    cases h' with
    | array length' equal' =>
      refine .array (length.trans length') fun i item other hitem hother => ?_
      have hlt : i < between.length := length ▸ (List.getElem?_eq_some_iff.mp hitem).1
      have hbetween := List.getElem?_eq_getElem hlt
      exact ih i item _ hitem hbetween (equal' i _ other hbetween hother)
  | @hash entries between keys _ ih =>
    cases h' with
    | hash keys' equal' =>
      refine .hash (fun key => (keys key).trans (keys' key)) fun key value other hvalue hother => ?_
      obtain ⟨⟨_, through⟩, hthrough, rfl⟩ :=
        List.mem_map.mp ((keys key).mp (List.mem_map_of_mem hvalue))
      exact ih _ value through hvalue hthrough (equal' _ through other hthrough hother)
  | function id =>
    cases h' with
    | function id' => exact .function (id.trans id')
  | _ =>
    cases h'
    constructor

/-! ### Induction on what is in a value -/

/-- The values that equality looks at inside a value. -/
def parts : Value → List Value
  | .array items => items
  | .hash entries => entries.map Prod.snd
  | _ => []

mutual

/-- What holds of a value as soon as it holds of the values in it holds of every value. -/
theorem parts_induction {P : Value → Prop}
    (h : ∀ value : Value, (∀ part ∈ value.parts, P part) → P value) (value : Value) :
    P value := by
  match value with
  | .array items => exact h _ (items_induction h items)
  | .hash entries => exact h _ (entries_induction h entries)
  | .null | .int _ | .bool _ | .str _ | .function _ | .compiled .. | .closure .. | .builtin _ =>
    exact h _ (fun _ hm => absurd hm List.not_mem_nil)

theorem items_induction {P : Value → Prop}
    (h : ∀ value : Value, (∀ part ∈ value.parts, P part) → P value) (items : List Value) :
    ∀ part ∈ items, P part := by
  match items with
  | [] => exact fun _ hm => absurd hm List.not_mem_nil
  | item :: rest =>
    exact List.forall_mem_cons.mpr ⟨parts_induction h item, items_induction h rest⟩

theorem entries_induction {P : Value → Prop}
    (h : ∀ value : Value, (∀ part ∈ value.parts, P part) → P value)
    (entries : List (Key × Value)) : ∀ part ∈ entries.map Prod.snd, P part := by
  match entries with
  | [] => exact fun _ hm => absurd hm List.not_mem_nil
  | (_, value) :: rest =>
    exact List.forall_mem_cons.mpr ⟨parts_induction h value, entries_induction h rest⟩

end

/-- In a well-formed value all that equality looks at is well-formed. -/
theorem WellFormed.of_mem_parts {value part : Value} (h : value.WellFormed)
    (hp : part ∈ value.parts) : part.WellFormed := by
  cases value with
  | array items => exact allWellFormed_iff.mp h part hp
  | hash entries =>
    obtain ⟨entry, hentry, rfl⟩ := List.mem_map.mp hp
    exact entriesWellFormed_iff.mp h.2 entry hentry
  | _ => cases hp

theorem Equal.refl {value : Value} (h : value.WellFormed) : Equal value value := by
  induction value using parts_induction with
  | h value ih =>
    have hparts (part : Value) (hp : part ∈ value.parts) : Equal part part :=
      ih part hp (h.of_mem_parts hp)
    cases value with
    | array items =>
      refine .array rfl fun i item other hitem hother => ?_
      obtain rfl := Option.some.inj (hitem.symm.trans hother)
      exact hparts item (List.mem_of_getElem? hitem)
    | hash entries =>
      refine .hash (fun _ => Iff.rfl) fun key value other hvalue hother => ?_
      have hfound := (Entries.find?_eq_some_iff h.1).mpr hvalue
      obtain rfl := Option.some.inj
        (hfound.symm.trans ((Entries.find?_eq_some_iff h.1).mpr hother))
      exact hparts value (List.mem_map_of_mem hvalue)
    | function tree => exact .function rfl
    | _ => constructor

section
variable {entries others : List (Key × Value)}

/-- As many distinct keys as the other list has, all of them keys of the other list, are all the
keys it has. -/
theorem perm_keys (h : (entries.map Prod.fst).Nodup) (hlength : entries.length = others.length)
    (hsame : sameEntries entries others) :
    (entries.map Prod.fst).Perm (others.map Prod.fst) := by
  have hsubset : entries.map Prod.fst ⊆ others.map Prod.fst := by
    intro key hkey
    obtain ⟨entry, hentry, rfl⟩ := List.mem_map.mp hkey
    obtain ⟨other, hfind, -⟩ := sameEntries_iff.mp hsame entry hentry
    exact List.mem_map.mpr ⟨_, Entries.mem_of_find? hfind, rfl⟩
  refine (List.subperm_of_subset h hsubset).perm_of_length_le ?_
  rw [List.length_map, List.length_map]
  exact Nat.le_of_eq hlength.symm

/-- Sizes and a comparison one way are as good as a comparison both ways. -/
theorem same_hash_iff (h : (entries.map Prod.fst).Nodup) (ho : (others.map Prod.fst).Nodup) :
    (Value.hash entries).same (.hash others) ↔
      (∀ key, key ∈ entries.map Prod.fst ↔ key ∈ others.map Prod.fst) ∧
        ∀ key value other, (key, value) ∈ entries → (key, other) ∈ others →
          value.same other := by
  rw [same, Bool.and_eq_true, beq_iff_eq]
  constructor
  · rintro ⟨hlength, hsame⟩
    refine ⟨fun key => (perm_keys h hlength hsame).mem_iff,
      fun key value other hvalue hother => ?_⟩
    obtain ⟨found, hfind, hfound⟩ := sameEntries_iff.mp hsame (key, value) hvalue
    rw [(Entries.find?_eq_some_iff ho).mpr hother] at hfind
    cases hfind
    exact hfound
  · rintro ⟨hkeys, hvalues⟩
    have hperm := (List.perm_ext_iff_of_nodup h ho).mpr hkeys
    refine ⟨by simpa using hperm.length_eq, sameEntries_iff.mpr fun entry hentry => ?_⟩
    obtain ⟨⟨_, other⟩, hother, rfl⟩ :=
      List.mem_map.mp ((hkeys entry.1).mp (List.mem_map_of_mem hentry))
    exact ⟨other, (Entries.find?_eq_some_iff ho).mpr hother, hvalues _ _ _ hentry hother⟩

end

/-- The comparison finds out whether two values are equal. -/
theorem same_iff_equal {a b : Value} (ha : a.WellFormed) (hb : b.WellFormed) :
    a.same b ↔ Equal a b := by
  induction a using parts_induction generalizing b with
  | h a ih =>
    have hparts {part other : Value} (hp : part ∈ a.parts) (ho : other ∈ b.parts) :
        part.same other ↔ Equal part other :=
      ih part hp (ha.of_mem_parts hp) (hb.of_mem_parts ho)
    cases a with
    | array items =>
      cases b with
      | array others =>
        rw [same, sameItems_iff]
        constructor
        · rintro ⟨hlength, hall⟩
          refine .array hlength fun i item other hitem hother => ?_
          exact (hparts (List.mem_of_getElem? hitem) (List.mem_of_getElem? hother)).mp
            (hall i item other hitem hother)
        · rintro (_ | _ | _ | _ | ⟨hlength, hall⟩)
          refine ⟨hlength, fun i item other hitem hother => ?_⟩
          exact (hparts (List.mem_of_getElem? hitem) (List.mem_of_getElem? hother)).mpr
            (hall i item other hitem hother)
      | _ => exact iff_of_false (by simp [same]) (fun h => nomatch h)
    | hash entries =>
      cases b with
      | hash others =>
        have hentry {key : Key} {value other : Value} (hvalue : (key, value) ∈ entries)
            (hother : (key, other) ∈ others) : value.same other ↔ Equal value other :=
          hparts (List.mem_map_of_mem hvalue) (List.mem_map_of_mem hother)
        rw [same_hash_iff ha.1 hb.1]
        constructor
        · rintro ⟨hkeys, hall⟩
          exact .hash hkeys fun key value other hvalue hother =>
            (hentry hvalue hother).mp (hall key value other hvalue hother)
        · intro h
          cases h with
          | hash hkeys hall =>
            exact ⟨hkeys, fun key value other hvalue hother =>
              (hentry hvalue hother).mpr (hall key value other hvalue hother)⟩
      | _ => exact iff_of_false (by simp [same]) (fun h => nomatch h)
    | null =>
      cases b with
      | null => exact iff_of_true rfl .null
      | _ => exact iff_of_false (by simp [same]) (fun h => nomatch h)
    | function tree =>
      cases b with
      | function other =>
        rw [same, beq_iff_eq]
        refine ⟨.function, fun h => ?_⟩
        cases h with
        | function id => exact id
      | _ => exact iff_of_false (by simp [same]) (fun h => nomatch h)
    | _ =>
      constructor
      · intro h
        cases b <;> simp only [same, beq_iff_eq, Bool.false_eq_true] at h
        all_goals
          subst h
          constructor
      · intro h
        cases h
        simp [same]

/-- The values equal to a key are those that are this key. -/
theorem same_toValue_iff {key : Key} {value : Value} :
    key.toValue.same value ↔ value.key? = some key := by
  constructor
  · intro h
    cases key <;> cases value <;> simp_all [Key.toValue, same, key?]
  · intro h
    rw [← toValue_of_key? h]
    cases key <;> simp [Key.toValue, same]

/-- Values that can be keys are equal when they are the same key. -/
theorem same_iff_toKey_eq {a b : Value} (ha : a.key?.isSome) (hb : b.key?.isSome) :
    a.same b ↔ a.toKey = b.toKey := by
  obtain ⟨key, hkey⟩ := Option.isSome_iff_exists.mp ha
  obtain ⟨other, hother⟩ := Option.isSome_iff_exists.mp hb
  rw [← toValue_of_key? hkey, same_toValue_iff, toKey, toKey, key?_toValue, hother]
  simp [eq_comm]

/-- The comparison of values is an equivalence. Hashes are equal when they have the same keys with
equal values, and values that can be keys when they are the same key. -/
theorem equivalence_same :
    Equivalence (fun a b : { value : Value // value.WellFormed } => (a.1 == b.1) = true) ∧
      (∀ entries others : List (Key × Value), (Value.hash entries).WellFormed →
        (Value.hash others).WellFormed →
        ((Value.hash entries == .hash others) = true ↔
          (∀ key, key ∈ entries.map Prod.fst ↔ key ∈ others.map Prod.fst) ∧
            ∀ key value other, (key, value) ∈ entries → (key, other) ∈ others →
              (value == other) = true)) ∧
      ∀ a b : Value, a.key?.isSome → b.key?.isSome →
        ((a == b) = true ↔ a.toKey = b.toKey) := by
  refine ⟨⟨fun a => ?_, fun {a b} h => ?_, fun {a b c} h h' => ?_⟩,
    fun entries others h ho => same_hash_iff h.1 ho.1, fun a b => same_iff_toKey_eq⟩
  · exact (same_iff_equal a.2 a.2).mpr (.refl a.2)
  · exact (same_iff_equal b.2 a.2).mpr ((same_iff_equal a.2 b.2).mp h).symm
  · have hab := (same_iff_equal a.2 b.2).mp h
    have hbc := (same_iff_equal b.2 c.2).mp h'
    exact (same_iff_equal a.2 c.2).mpr (hab.trans hbc)

/-- A key that came twice would be found at its first place only. -/
example : (Value.hash [(.int 1, .null), (.int 1, .bool true)]).same
    (.hash [(.int 1, .null), (.int 1, .bool true)]) = false := by decide

end Value

end Simian
