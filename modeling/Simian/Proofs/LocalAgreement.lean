import Simian.Proofs.FunctionSupport

/-!
# Local slots beside scopes

A `let` in a function body puts a value in a slot of the machine and binds the name in a
scope of the evaluator. Distinct parameters get the first slots in turn, where the
arguments lie already.
-/
namespace Simian

open SymbolScope SymbolTable

variable {of : Making} {tree : TreeFunction} {bindings : Std.ExtHashMap String Value}
  {table later : SymbolTable} {slots : List Value} {name : String} {symbol : Symbol}
  {value other : Value}

/-- Giving a name a slot changes what that slot and that name have, and nothing else. -/
theorem SameLocals.define (h : SameLocals of tree bindings table.inner slots) (hs : table.Sound)
    (hd : Defines table name symbol later) (hl : table.isGlobal = false)
    (hlt : symbol.index < slots.length) (hv : Alike of value other) :
    SameLocals of tree (bindings.insert name value) later.inner (slots.set symbol.index other) := by
  have hst : symbol.storage = .localSlot := by rw [hd.storage_eq, hl]; rfl
  obtain ⟨inner, outer⟩ := table
  cases outer with
  | nil => cases hl
  | cons next rest =>
    have hin := hs.1
    refine ⟨fun n sym hn hsym => ?_, fun n sym hn hsym => ?_, fun n hn => ?_⟩
    · rw [hd.symbols] at hn
      split at hn
      next he =>
        cases hn
        subst he
        exact ⟨value, other, by rw [Std.ExtHashMap.getElem?_insert_self],
          List.getElem?_set_self hlt, hv⟩
      next hne =>
        obtain ⟨v, w, hb, hat, halike⟩ := h.slot n sym hn hsym
        have hapart : symbol.index ≠ sym.index := by
          intro hi
          rcases hd.fresh with hf | hf
          · rcases hin.storage n sym hn with ⟨_, hlt⟩ | ⟨hc, _⟩ | hc
            · have hf : symbol.index = inner.slots := hf
              omega
            · rw [hsym] at hc; cases hc
            · rw [hsym] at hc; cases hc
          · exact hne (hin.apart name n symbol sym hf hn hst hsym hi)
        refine ⟨v, w, ?_, by rw [List.getElem?_set_ne hapart, hat], halike⟩
        rw [Std.ExtHashMap.getElem?_insert, if_neg (by simpa using hne), hb]
    · rw [hd.symbols] at hn
      split at hn
      · cases hn
        rw [hst] at hsym
        cases hsym
      next hne =>
        rw [Std.ExtHashMap.getElem?_insert, if_neg (by simpa using hne)]
        exact h.self n sym hn hsym
    · have hne : name ≠ n := by
        rintro rfl
        exact hn ⟨symbol, by rw [hd.symbols, if_pos rfl], .inl hst⟩
      rw [Std.ExtHashMap.getElem?_insert, if_neg (by simpa using hne)]
      refine h.other n ?_
      rintro ⟨sym, hsym, hown⟩
      exact hn ⟨sym, by rw [hd.symbols, if_neg hne, hsym], hown⟩

theorem slots_define (hl : table.isGlobal = false)
    (hn : ∀ symbol, table.inner.symbols[name]? = some symbol → symbol.storage ≠ .localSlot) :
    (table.define name).2.inner.slots = table.inner.slots + 1 := by
  unfold SymbolTable.define SymbolScope.define
  rw [hl]
  dsimp only
  cases hs : table.inner.symbols[name]? with
  | none => rfl
  | some symbol =>
    have hne : (symbol.storage == Storage.localSlot) = false := by simpa using hn symbol hs
    simp only [Option.filter_some, Bool.false_eq_true, if_false, hne]
    rfl

/-- Distinct parameters that have no slots yet get the next ones in turn. -/
theorem SameLocals.parameters {parameters : List String} {front back : List Value}
    {operands : List (Value × Value)} (hlength : parameters.length = operands.length)
    (h : SameLocals of tree bindings table.inner (front ++ (operands.map Prod.snd ++ back)))
    (hs : table.Sound) (hl : table.isGlobal = false) (hslots : table.inner.slots = front.length)
    (hnew : ∀ name ∈ parameters, ∀ symbol, table.inner.symbols[name]? = some symbol →
      symbol.storage ≠ .localSlot)
    (hnodup : parameters.Nodup) (ha : ∀ pair ∈ operands, Alike of pair.1 pair.2) :
    let later := parameters.foldl (fun table parameter => (table.define parameter).2) table
    SameLocals of tree
      ((parameters.zip (operands.map Prod.fst)).foldl
        (fun bindings pair => bindings.insert pair.1 pair.2) bindings)
      later.inner (front ++ (operands.map Prod.snd ++ back)) ∧
    later.inner.slots = front.length + parameters.length := by
  induction parameters generalizing table bindings front operands with
  | nil => exact ⟨h, hslots⟩
  | cons parameter rest ih =>
    cases operands with
    | nil => cases hlength
    | cons pair operands =>
      have hdef := defines_define table parameter fun _ => hs.name_eq
      have hst : (table.define parameter).1.storage = .localSlot := by
        rw [hdef.storage_eq, hl]
        rfl
      have hindex : (table.define parameter).1.index = front.length := by
        rcases hdef.fresh with hf | hf
        · exact hf.trans hslots
        · exact absurd hst (hnew parameter List.mem_cons_self _ hf)
      have hstep := h.define hs hdef hl (by rw [hindex]; simp) (ha pair List.mem_cons_self)
      have hsame : (front ++ ((pair :: operands).map Prod.snd ++ back)).set
          (table.define parameter).1.index pair.2 =
            (front ++ [pair.2]) ++ (operands.map Prod.snd ++ back) := by
        rw [hindex]
        simp
      rw [hsame] at hstep
      have hnext : ∀ name ∈ rest, ∀ symbol,
          (table.define parameter).2.inner.symbols[name]? = some symbol →
          symbol.storage ≠ .localSlot := by
        intro name hm symbol hsymbol
        rw [hdef.symbols, if_neg (by
          rintro rfl
          exact (List.nodup_cons.mp hnodup).1 hm)] at hsymbol
        exact hnew name (List.mem_cons_of_mem _ hm) symbol hsymbol
      obtain ⟨hlocals, hcount⟩ := ih (Nat.succ.inj hlength) hstep
        (hdef.sound hs fun hg => by rw [hst] at hg; cases hg)
        (hdef.advances.isGlobal_eq.trans hl)
        (by
          rw [slots_define hl (hnew parameter List.mem_cons_self), hslots, List.length_append]
          rfl)
        hnext (List.nodup_cons.mp hnodup).2 fun pair hm => ha pair (List.mem_cons_of_mem _ hm)
      rw [List.append_assoc] at hlocals
      refine ⟨hlocals, ?_⟩
      rw [List.length_append, List.length_singleton] at hcount
      rw [List.foldl_cons, hcount, List.length_cons]
      omega

/-- What a call binds is what its function finds in its first slots. -/
theorem sameLocals_opened {table : SymbolTable} (hs : table.Sound) (hnodup : tree.parameters.Nodup)
    {operands : List (Value × Value)} (hlength : tree.parameters.length = operands.length)
    (ha : ∀ pair ∈ operands, Alike of pair.1 pair.2) (back : List Value) :
    SameLocals of tree (Eval.callBindings tree (operands.map Prod.fst))
      (table.opened tree.name tree.parameters).inner (operands.map Prod.snd ++ back) ∧
    (table.opened tree.name tree.parameters).inner.slots = tree.parameters.length := by
  have hempty : ∀ name : String, table.enter.inner.symbols[name]? = none :=
    fun name => Std.ExtHashMap.getElem?_empty
  unfold SymbolTable.opened Eval.callBindings
  cases hname : tree.name with
  | none =>
    have hbase : SameLocals of tree ∅ table.enter.inner
        ([] ++ (operands.map Prod.snd ++ back)) := by
      refine ⟨fun n symbol hn => ?_, fun n symbol hn => ?_,
        fun n _ => Std.ExtHashMap.getElem?_empty⟩
      · rw [hempty] at hn
        cases hn
      · rw [hempty] at hn
        cases hn
    obtain ⟨hlocals, hslots⟩ := hbase.parameters hlength (sound_enter hs) rfl rfl
      (fun n _ symbol hn => by rw [hempty] at hn; cases hn) hnodup ha
    rw [List.length_nil, Nat.zero_add] at hslots
    exact ⟨hlocals, hslots⟩
  | some own =>
    have hself : ∀ n : String, (table.enter.defineSelf own).2.inner.symbols[n]? =
        if own = n then some ⟨own, .self, 0⟩ else none := fun n =>
      (symbols_insert table.enter.inner ⟨own, .self, 0⟩ n).trans (by rw [hempty])
    have hbound : ∀ n : String, (Std.ExtHashMap.insert (∅ : Std.ExtHashMap String Value) own
        (.function tree))[n]? = if own = n then some (.function tree) else none := by
      intro n
      rw [Std.ExtHashMap.getElem?_insert, Std.ExtHashMap.getElem?_empty]
      simp
    have hbase : SameLocals of tree (Std.ExtHashMap.insert ∅ own (.function tree))
        (table.enter.defineSelf own).2.inner ([] ++ (operands.map Prod.snd ++ back)) := by
      refine ⟨fun n symbol hn hst => ?_, fun n symbol hn _ => ?_, fun n hn => ?_⟩
      · rw [hself] at hn
        split at hn <;> cases hn
        cases hst
      · rw [hself] at hn
        split at hn
        next he => rw [hbound, if_pos he]
        · cases hn
      · rw [hbound, if_neg]
        exact fun he => hn ⟨_, (hself n).trans (if_pos he), .inr rfl⟩
    obtain ⟨hlocals, hslots⟩ := hbase.parameters hlength
      (sound_defineSelf own (sound_enter hs) (List.cons_ne_nil _ _)) rfl rfl
      (fun n _ symbol hn => by
        rw [hself] at hn
        split at hn <;> cases hn
        nofun) hnodup ha
    rw [List.length_nil, Nat.zero_add] at hslots
    exact ⟨hlocals, hslots⟩

end Simian
