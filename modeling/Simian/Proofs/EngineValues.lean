import Mathlib.Data.List.Forall2
import Simian.Proofs.Closures

/-!
# Values of the two engines

The evaluator and the machine have the same data and different functions. Values are
alike if they are the same up to functions, and a function of the evaluator is like the
closure that the machine made at the same time: both engines count the literals that they
evaluate, the machine behind the frame of its unit. What else there is to say of a
function and the code and captured values of its closure is a parameter, so that one
proof serves every use of the relation.

Alike operands give alike results, and the same errors up to the name of the type of
functions.
-/
namespace Simian

/-- What holds of a function, the code of its closure and the values that the captured ones stand
for. -/
abbrev Making : Type := TreeFunction → CompiledFunction → List Value → Prop

mutual

/-- A value of the evaluator and one of the machine are the same up to functions. -/
inductive Alike (of : Making) : Value → Value → Prop where
  | null : Alike of .null .null
  | int (word : Int64) : Alike of (.int word) (.int word)
  | bool (truth : Bool) : Alike of (.bool truth) (.bool truth)
  | str (text : String) : Alike of (.str text) (.str text)
  | builtin (which : Builtin) : Alike of (.builtin which) (.builtin which)
  | array {items others : List Value} : AllAlike of items others →
    Alike of (.array items) (.array others)
  | hash {entries others : List (Key × Value)} : EntriesAlike of entries others →
    Alike of (.hash entries) (.hash others)
  | function {tree : TreeFunction} {body : CompiledFunction} {values captured : List Value} :
    of tree body values → AllAlike of values captured →
    Alike of (.function tree) (.closure (tree.id + 1) body captured)

inductive AllAlike (of : Making) : List Value → List Value → Prop where
  | nil : AllAlike of [] []
  | cons {value other : Value} {rest more : List Value} : Alike of value other →
    AllAlike of rest more → AllAlike of (value :: rest) (other :: more)

inductive EntriesAlike (of : Making) : List (Key × Value) → List (Key × Value) → Prop where
  | nil : EntriesAlike of [] []
  | cons {key : Key} {value other : Value} {rest more : List (Key × Value)} :
    Alike of value other → EntriesAlike of rest more →
    EntriesAlike of ((key, value) :: rest) ((key, other) :: more)

end

section mono
variable {of more : Making}

mutual

/-- What is said of functions may be weakened. -/
theorem Alike.mono (hm : ∀ tree body values, of tree body values → more tree body values)
    {value other : Value} (h : Alike of value other) : Alike more value other :=
  match h with
  | .null => .null
  | .int word => .int word
  | .bool truth => .bool truth
  | .str text => .str text
  | .builtin which => .builtin which
  | .array hi => .array (hi.mono hm)
  | .hash he => .hash (he.mono hm)
  | .function hof hc => .function (hm _ _ _ hof) (hc.mono hm)

theorem AllAlike.mono (hm : ∀ tree body values, of tree body values → more tree body values)
    {items others : List Value} (h : AllAlike of items others) : AllAlike more items others :=
  match h with
  | .nil => .nil
  | .cons hv hr => .cons (hv.mono hm) (hr.mono hm)

theorem EntriesAlike.mono (hm : ∀ tree body values, of tree body values → more tree body values)
    {entries others : List (Key × Value)} (h : EntriesAlike of entries others) :
    EntriesAlike more entries others :=
  match h with
  | .nil => .nil
  | .cons hv hr => .cons (hv.mono hm) (hr.mono hm)

end

end mono

variable {of : Making}

theorem allAlike_iff {items others : List Value} :
    AllAlike of items others ↔ List.Forall₂ (Alike of) items others := by
  constructor
  · intro h
    induction items generalizing others with
    | nil =>
      cases h
      exact .nil
    | cons item rest ih =>
      cases h with
      | cons hv hr => exact .cons hv (ih hr)
  · intro h
    induction h with
    | nil => exact .nil
    | cons hv _ ih => exact .cons hv ih

theorem AllAlike.length_eq {items others : List Value} (h : AllAlike of items others) :
    items.length = others.length :=
  (allAlike_iff.mp h).length_eq

theorem AllAlike.append {items others more rest : List Value} (h : AllAlike of items others)
    (hm : AllAlike of more rest) : AllAlike of (items ++ more) (others ++ rest) :=
  allAlike_iff.mpr (List.rel_append (allAlike_iff.mp h) (allAlike_iff.mp hm))

theorem AllAlike.getElem? {items others : List Value} (h : AllAlike of items others) (i : Nat) :
    items[i]? = none ∧ others[i]? = none ∨
      ∃ value other, items[i]? = some value ∧ others[i]? = some other ∧ Alike of value other := by
  induction items generalizing others i with
  | nil =>
    cases h
    exact .inl ⟨rfl, rfl⟩
  | cons item rest ih =>
    cases h with
    | cons hv hr =>
      cases i with
      | zero => exact .inr ⟨_, _, rfl, rfl, hv⟩
      | succ i => exact ih hr i

theorem Alike.of_closure {tree : TreeFunction} {id : Nat} {body : CompiledFunction}
    {captured : List Value} (h : Alike of (.function tree) (.closure id body captured)) :
    id = tree.id + 1 ∧ ∃ values, of tree body values ∧ AllAlike of values captured := by
  cases h with
  | function hof hall => exact ⟨rfl, _, hof, hall⟩

/-! ### What shows -/

/-- The type of a function that the evaluator has for a closure. -/
def Value.Kind.inTree : Value.Kind → Value.Kind
  | .closure => .function
  | other => other

/-- The error that the evaluator has for an error of the machine. -/
def OperationError.inTree : OperationError → OperationError
  | .unsupportedBinary op left right => .unsupportedBinary op left.inTree right.inTree
  | .unsupportedUnary op operand => .unsupportedUnary op operand.inTree
  | .notIndexable collection key => .notIndexable collection.inTree key.inTree
  | .unhashable key => .unhashable key.inTree
  | .builtinArgument builtin got => .builtinArgument builtin got.inTree
  | other => other

/-- Both engines have a result, and these are in the relation, or both have the same error. -/
def SameOutcome {α β : Type} (R : α → β → Prop) :
    Except OperationError α → Except OperationError β → Prop
  | .ok value, .ok other => R value other
  | .error error, .error fault => error = fault.inTree
  | _, _ => False

theorem SameOutcome.bind {α β γ δ : Type} {R : α → β → Prop} {S : γ → δ → Prop}
    {first : Except OperationError α} {second : Except OperationError β}
    {next : α → Except OperationError γ} {other : β → Except OperationError δ}
    (h : SameOutcome R first second) (hn : ∀ a b, R a b → SameOutcome S (next a) (other b)) :
    SameOutcome S (first >>= next) (second >>= other) := by
  cases first <;> cases second <;> first | exact h.elim | skip
  · exact h
  · exact hn _ _ h

section
variable {value other : Value}

theorem Alike.kind_eq (h : Alike of value other) : value.kind = other.kind.inTree := by
  cases h <;> rfl

theorem Alike.isTruthy_eq (h : Alike of value other) : value.isTruthy = other.isTruthy := by
  cases h <;> rfl

theorem Alike.key?_eq (h : Alike of value other) : value.key? = other.key? := by
  cases h <;> rfl

theorem Alike.toKey (h : Alike of value other) :
    SameOutcome (fun a b => a = b) value.toKey other.toKey := by
  unfold Value.toKey
  rw [h.key?_eq]
  cases other.key? with
  | none => exact congrArg OperationError.unhashable h.kind_eq
  | some key => exact rfl

end

/-! ### Equality -/

theorem EntriesAlike.find? {entries others : List (Key × Value)}
    (h : EntriesAlike of entries others) (key : Key) :
    Entries.find? key entries = none ∧ Entries.find? key others = none ∨
      ∃ value other, Entries.find? key entries = some value ∧
        Entries.find? key others = some other ∧ Alike of value other := by
  induction entries generalizing others with
  | nil =>
    cases h
    exact .inl ⟨rfl, rfl⟩
  | cons entry rest ih =>
    cases h with
    | @cons k _ _ _ _ hv hr =>
      rw [Entries.find?, Entries.find?]
      by_cases hk : k = key
      · rw [if_pos hk, if_pos hk]
        exact .inr ⟨_, _, rfl, rfl, hv⟩
      · rw [if_neg hk, if_neg hk]
        exact ih hr

theorem EntriesAlike.length_eq {entries others : List (Key × Value)}
    (h : EntriesAlike of entries others) : entries.length = others.length := by
  induction entries generalizing others with
  | nil =>
    cases h
    rfl
  | cons entry rest ih =>
    cases h with
    | cons _ hr => exact congrArg Nat.succ (ih hr)

mutual

theorem Alike.same_eq {a b c d : Value} (hab : Alike of a b) (hcd : Alike of c d) :
    a.same c = b.same d := by
  match hab with
  | .null | .int _ | .bool _ | .str _ | .builtin _ => cases hcd <;> simp only [Value.same]
  | .array hi =>
    cases hcd with
    | array hj => exact hi.sameItems_eq hj
    | _ => simp only [Value.same]
  | .hash he =>
    cases hcd with
    | hash hf => simp only [Value.same, he.length_eq, hf.length_eq, he.sameEntries_eq hf]
    | _ => simp only [Value.same]
  | .function _ _ =>
    cases hcd with
    | function _ _ => simp [Value.same]
    | _ => simp only [Value.same]

theorem AllAlike.sameItems_eq {a b c d : List Value} (hab : AllAlike of a b)
    (hcd : AllAlike of c d) : Value.sameItems a c = Value.sameItems b d := by
  match hab with
  | .nil => cases hcd <;> simp only [Value.sameItems]
  | .cons hv hr =>
    cases hcd with
    | nil => simp only [Value.sameItems]
    | cons hw hs => simp only [Value.sameItems, hv.same_eq hw, hr.sameItems_eq hs]

theorem EntriesAlike.sameEntries_eq {a b c d : List (Key × Value)} (hab : EntriesAlike of a b)
    (hcd : EntriesAlike of c d) : Value.sameEntries a c = Value.sameEntries b d := by
  match hab with
  | .nil => simp only [Value.sameEntries]
  | .cons hv hr =>
    simp only [Value.sameEntries]
    rcases hcd.find? _ with ⟨hc, hd⟩ | ⟨value, other, hc, hd, hw⟩
    · rw [hc, hd]
    · rw [hc, hd]
      simp only [hv.same_eq hw, hr.sameEntries_eq hcd]

end

/-! ### Operators -/

theorem Value.IsScalar.alike {value : Value} (h : value.IsScalar) : Alike of value value := by
  cases value <;> first | exact h.elim | constructor

/-- An operation on data that does not fail because of its operands' types. -/
theorem sameOutcome_of_scalar {result : Except OperationError Value}
    (hs : ∀ value, result = .ok value → value.IsScalar)
    (he : ∀ error, result = .error error → error.inTree = error) :
    SameOutcome (Alike of) result result := by
  cases result with
  | error error => exact (he error rfl).symm
  | ok value => exact (hs value rfl).alike

theorem Integer.inTree_of_fitting {word : Int} {text : String} {error : OperationError}
    (h : (match Integer.fit? word with
      | some word => .ok (.int word)
      | none => .error (.integerOverflow text) : Except OperationError Value) = .error error) :
    error.inTree = error := by
  split at h <;> cases h
  rfl

theorem BinaryOp.inTree_of_onIntegers {op : BinaryOp} {a b : Int64} {error : OperationError}
    (h : op.onIntegers a b = .error error) : error.inTree = error := by
  unfold onIntegers at h
  dsimp only at h
  split at h
  · exact Integer.inTree_of_fitting h
  · exact Integer.inTree_of_fitting h
  · exact Integer.inTree_of_fitting h
  · split at h
    · cases h; rfl
    · exact Integer.inTree_of_fitting h
  · split at h
    · cases h; rfl
    · split at h
      · exact Integer.inTree_of_fitting h
      · cases h; rfl
  · split at h <;> cases h
    rfl

theorem BinaryOp.inTree_of_onTexts {op : BinaryOp} {a b : String} {error : OperationError}
    (h : op.onTexts a b = .error error) : error.inTree = error := by
  unfold onTexts at h
  split at h
  · cases h
  · split at h <;> cases h
    rfl

/-- Whether the operator is one of the two that compare any values. -/
def BinaryOp.isEquality (op : BinaryOp) : Bool := op == .eq || op == .notEq

theorem BinaryOp.apply_of_isEquality {op : BinaryOp} (h : op.isEquality = false)
    (left right : Value) : op.apply left right =
      match left, right with
      | .int a, .int b => op.onIntegers a b
      | .str a, .str b => op.onTexts a b
      | _, _ => .error (.unsupportedBinary op left.kind right.kind) := by
  unfold apply
  split
  · cases h
  · cases h
  · rfl

theorem Alike.binary {a b c d : Value} (hab : Alike of a b) (hcd : Alike of c d) (op : BinaryOp) :
    SameOutcome (Alike of) (op.apply a c) (op.apply b d) := by
  have hsame : (a == c) = (b == d) := hab.same_eq hcd
  have hscalar : ∀ {left right value : Value}, op.apply left right = .ok value → value.IsScalar :=
    BinaryOp.isScalar_of_apply
  have hother : op.isEquality = false →
      SameOutcome (Alike of) (op.apply a c) (op.apply b d) := by
    intro he
    have happly := BinaryOp.apply_of_isEquality he
    cases hab <;> cases hcd <;> first
      | exact sameOutcome_of_scalar (fun _ => hscalar) fun _ h =>
          BinaryOp.inTree_of_onIntegers ((happly _ _).symm.trans h)
      | exact sameOutcome_of_scalar (fun _ => hscalar) fun _ h =>
          BinaryOp.inTree_of_onTexts ((happly _ _).symm.trans h)
      | (simp only [happly]; exact rfl)
  cases op with
  | eq =>
    show Alike of (.bool (a == c)) (.bool (b == d))
    rw [hsame]
    exact .bool _
  | notEq =>
    show Alike of (.bool !(a == c)) (.bool !(b == d))
    rw [hsame]
    exact .bool _
  | _ => exact hother rfl

theorem Alike.unary {a b : Value} (h : Alike of a b) (op : UnaryOp) :
    SameOutcome (Alike of) (op.apply a) (op.apply b) := by
  cases op with
  | invert =>
    show Alike of (.bool !a.isTruthy) (.bool !b.isTruthy)
    rw [h.isTruthy_eq]
    exact .bool _
  | negate =>
    show SameOutcome _ a.negate b.negate
    cases h with
    | int word =>
      unfold Value.negate
      dsimp only
      cases Integer.fit? (-word.toInt) with
      | none => exact rfl
      | some word => exact .int word
    | _ => exact rfl

theorem AllAlike.getD {items others : List Value} (h : AllAlike of items others) (i : Nat) :
    Alike of (items.getD i .null) (others.getD i .null) := by
  rw [List.getD_eq_getElem?_getD, List.getD_eq_getElem?_getD]
  rcases h.getElem? i with ⟨hi, ho⟩ | ⟨value, other, hi, ho, hv⟩
  · rw [hi, ho]
    exact .null
  · rw [hi, ho]
    exact hv

theorem Alike.index {a b c d : Value} (hab : Alike of a b) (hcd : Alike of c d) :
    SameOutcome (Alike of) (a.index c) (b.index d) := by
  cases hab with
  | array hi =>
    cases hcd with
    | int word =>
      show Alike of _ _
      split
      · exact hi.getD _
      · exact .null
    | _ => exact rfl
  | hash he =>
    show SameOutcome _ (c.toKey >>= _) (d.toKey >>= _)
    refine hcd.toKey.bind fun key _ hkey => ?_
    subst hkey
    show Alike of ((Entries.find? key _).getD .null) ((Entries.find? key _).getD .null)
    rcases he.find? key with ⟨hc, hd⟩ | ⟨value, other, hc, hd, hv⟩
    · rw [hc, hd]
      exact .null
    · rw [hc, hd]
      exact hv
  | _ =>
    cases hcd <;> exact rfl

/-! ### Hashes -/

/-- The same keys with alike values. -/
structure Gathered.Alike (of : Making) (gathered other : Gathered) : Prop where
  keys : gathered.keys = other.keys
  values : ∀ key : Key, gathered.values[key]? = none ∧ other.values[key]? = none ∨
    ∃ value found, gathered.values[key]? = some value ∧ other.values[key]? = some found ∧
      Simian.Alike of value found

theorem Gathered.Alike.insert {gathered other : Gathered} (h : gathered.Alike of other) (key : Key)
    {value found : Value} (hv : Simian.Alike of value found) :
    (gathered.insert key value).Alike of (other.insert key found) where
  keys := by
    have hcontains : gathered.values.contains key = other.values.contains key := by
      rw [Std.ExtHashMap.contains_eq_isSome_getElem?, Std.ExtHashMap.contains_eq_isSome_getElem?]
      rcases h.values key with ⟨hg, ho⟩ | ⟨_, _, hg, ho, _⟩ <;> simp [hg, ho]
    unfold Gathered.insert
    dsimp only
    rw [hcontains, h.keys]
  values := by
    intro k
    unfold Gathered.insert
    dsimp only
    rw [Std.ExtHashMap.getElem?_insert, Std.ExtHashMap.getElem?_insert]
    split
    · exact .inr ⟨value, found, rfl, rfl, hv⟩
    · exact h.values k

/-- Keys and values that are alike, pair by pair. -/
abbrev PairsAlike (of : Making) (pairs others : List (Value × Value)) : Prop :=
  List.Forall₂ (fun a b => Alike of a.1 b.1 ∧ Alike of a.2 b.2) pairs others

theorem Gathered.Alike.insertAll {pairs others : List (Value × Value)}
    (hp : PairsAlike of pairs others) {gathered other : Gathered} (h : gathered.Alike of other) :
    SameOutcome (Gathered.Alike of) (gathered.insertAll pairs) (other.insertAll others) := by
  induction hp generalizing gathered other with
  | nil => exact h
  | @cons a b _ _ hpair _ ih =>
    obtain ⟨key, value⟩ := a
    obtain ⟨k, v⟩ := b
    have hkey := hpair.1.toKey
    simp only [Gathered.insertAll]
    cases hfirst : key.toKey <;> cases hsecond : k.toKey <;> rw [hfirst, hsecond] at hkey <;>
      first | exact hkey.elim | skip
    · exact hkey
    · subst hkey
      exact ih (h.insert _ hpair.2)

theorem Gathered.Alike.entries {gathered other : Gathered} (h : gathered.Alike of other) :
    EntriesAlike of gathered.entries other.entries := by
  unfold Gathered.entries
  rw [h.keys]
  generalize other.keys.reverse = keys
  induction keys with
  | nil => exact .nil
  | cons key rest ih =>
    simp only [List.filterMap_cons]
    rcases h.values key with ⟨hg, ho⟩ | ⟨value, found, hg, ho, hv⟩
    · rw [hg, ho]
      exact ih
    · rw [hg, ho]
      exact .cons hv ih

theorem PairsAlike.ofPairs {pairs others : List (Value × Value)} (h : PairsAlike of pairs others) :
    SameOutcome (Alike of) (Value.ofPairs pairs) (Value.ofPairs others) := by
  have hempty : Gathered.empty.Alike of Gathered.empty :=
    ⟨rfl, fun key => .inl ⟨Std.ExtHashMap.getElem?_empty, Std.ExtHashMap.getElem?_empty⟩⟩
  have hall := hempty.insertAll h
  unfold Value.ofPairs
  cases hfirst : Gathered.empty.insertAll pairs <;>
    cases hsecond : Gathered.empty.insertAll others <;> rw [hfirst, hsecond] at hall <;>
    first | exact hall.elim | skip
  · exact hall
  · exact .hash hall.entries

/-! ### Built-in functions -/

section
variable {arguments others : List Value}

theorem AllAlike.onlyArgument (h : AllAlike of arguments others) (builtin : Builtin) :
    SameOutcome (Alike of) (builtin.onlyArgument arguments) (builtin.onlyArgument others) := by
  cases h with
  | nil => exact rfl
  | cons hv hr =>
    cases hr with
    | nil => exact hv
    | cons _ hs =>
      show OperationError.builtinArity .. = OperationError.inTree (.builtinArity ..)
      simp only [OperationError.inTree, List.length_cons, hs.length_eq]

theorem Alike.arrayArgument {value other : Value} (h : Alike of value other) (builtin : Builtin) :
    SameOutcome (AllAlike of) (builtin.arrayArgument value) (builtin.arrayArgument other) := by
  cases h with
  | array hi => exact hi
  | _ => exact rfl

/-- The array that is the only argument. -/
theorem AllAlike.onlyArray (h : AllAlike of arguments others) (builtin : Builtin)
    {next other : List Value → Except OperationError Value}
    (hn : ∀ items found, AllAlike of items found →
      SameOutcome (Alike of) (next items) (other found)) :
    SameOutcome (Alike of)
      (do next (← builtin.arrayArgument (← builtin.onlyArgument arguments)))
      (do other (← builtin.arrayArgument (← builtin.onlyArgument others))) :=
  (h.onlyArgument builtin).bind fun _ _ hv => (hv.arrayArgument builtin).bind hn

theorem AllAlike.value (h : AllAlike of arguments others) (builtin : Builtin) :
    SameOutcome (Alike of) (builtin.value arguments) (builtin.value others) := by
  cases builtin with
  | len =>
    refine (h.onlyArgument .len).bind fun value other hv => ?_
    cases hv with
    | str text => exact .int _
    | array hi =>
      show Alike of (.int _) (.int _)
      rw [hi.length_eq]
      exact .int _
    | _ => exact rfl
  | puts => exact .null
  | first =>
    refine h.onlyArray .first fun items found hi => ?_
    show Alike of _ _
    cases hi with
    | nil => exact .null
    | cons hv _ => exact hv
  | last =>
    refine h.onlyArray .last fun items found hi => ?_
    show Alike of _ _
    rw [List.getLast?_eq_getElem?, List.getLast?_eq_getElem?, hi.length_eq]
    rcases hi.getElem? (found.length - 1) with ⟨ha, hb⟩ | ⟨value, other, ha, hb, hv⟩
    · rw [ha, hb]
      exact .null
    · rw [ha, hb]
      exact hv
  | rest =>
    refine h.onlyArray .rest fun items found hi => ?_
    show Alike of _ _
    cases hi with
    | nil => exact .null
    | cons _ hr => exact .array hr
  | push =>
    simp only [Builtin.value]
    cases h with
    | nil => exact rfl
    | cons hv hr =>
      cases hr with
      | nil => exact rfl
      | cons hw hs =>
        cases hs with
        | nil =>
          refine (hv.arrayArgument .push).bind fun items found hi => ?_
          exact .array (hi.append (.cons hw .nil))
        | cons _ ht =>
          show OperationError.builtinArity .. = OperationError.inTree (.builtinArity ..)
          simp only [OperationError.inTree, List.length_cons, ht.length_eq]

/-- Nothing keeps a sink without a fault from taking lines. -/
theorem Sink.putLines_open {sink : Sink} (h : sink.fault = none) (values : List Value) :
    ∃ later, sink.putLines values = (.ok (), later) ∧ later.fault = none := by
  induction values generalizing sink with
  | nil => exact ⟨sink, rfl, h⟩
  | cons value rest ih =>
    rw [putLines, h]
    exact ih rfl

theorem AllAlike.call (h : AllAlike of arguments others) (builtin : Builtin) {sink other : Sink}
    (hs : sink.fault = none) (ho : other.fault = none) :
    SameOutcome (Alike of) (builtin.call arguments sink).1 (builtin.call others other).1 ∧
      (builtin.call arguments sink).2.fault = none ∧
      (builtin.call others other).2.fault = none := by
  cases builtin with
  | puts =>
    obtain ⟨later, hl, hf⟩ := Sink.putLines_open hs arguments
    obtain ⟨later', hl', hf'⟩ := Sink.putLines_open ho others
    simp only [Builtin.call, hl, hl']
    exact ⟨.null, hf, hf'⟩
  | len => exact ⟨h.value .len, hs, ho⟩
  | first => exact ⟨h.value .first, hs, ho⟩
  | last => exact ⟨h.value .last, hs, ho⟩
  | rest => exact ⟨h.value .rest, hs, ho⟩
  | push => exact ⟨h.value .push, hs, ho⟩

end

end Simian
