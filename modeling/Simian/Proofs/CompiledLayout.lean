import Simian.Proofs.CodeConstruction
import Simian.Proofs.LayoutVerification
import Simian.Proofs.ScopeChains

/-!
# Compiled code obeys the layout rules

A compiler that is sound goes from step to step to sound ones, and what it drafted stays
(`Compiler.Leads`). A `Site` covers a compiler if the finished code, the pool and the
function it belongs to are what the compiler can still end up with. `Lays` joins the two:
whatever site covers the later compiler has the stretch of code in question.
-/
namespace Simian

open Compile

/-! ### Sound compilers -/

/-- There is room for the constants, and each shared one is found where it is. -/
structure PoolSound (constants : Array Value) (places : Std.ExtHashMap Key Nat) : Prop where
  size_le : constants.size ≤ maxConstants
  places : ∀ (key : Key) (index : Nat), places[key]? = some index →
    constants[index]? = some key.toValue

/-- A constant that is added at the end is found there under its key. -/
theorem PoolSound.push {constants : Array Value} {places : Std.ExtHashMap Key Nat}
    (h : PoolSound constants places) (hroom : ¬maxConstants ≤ constants.size) (value : Value)
    (hkey : ∀ {key : Key}, constantKey? value = some key → key.toValue = value) :
    PoolSound (constants.push value) (match constantKey? value with
      | some key => places.insert key constants.size
      | none => places) := by
  have hold : ∀ (i : Nat) (v : Value), constants[i]? = some v →
      (constants.push value)[i]? = some v := by
    intro i v hv
    rw [Array.getElem?_push_lt (Array.getElem?_eq_some_iff.mp hv).1]
    exact congrArg some (Array.getElem?_eq_some_iff.mp hv).2
  refine ⟨by rw [Array.size_push]; omega, fun key index hp => ?_⟩
  cases hk : constantKey? value with
  | none =>
    rw [hk] at hp
    exact hold index _ (h.places key index hp)
  | some new =>
    rw [hk] at hp
    dsimp only at hp
    rw [Std.ExtHashMap.getElem?_insert] at hp
    split at hp
    next he =>
      cases hp
      obtain rfl : new = key := by simpa using he
      rw [hkey hk, Array.getElem?_push_size]
    · exact hold index _ (h.places key index hp)

namespace SymbolTable

/-- The innermost scope may have got new names too, and the others have grown. -/
structure Advances (table later : SymbolTable) : Prop where
  slots_le : table.inner.slots ≤ later.inner.slots
  captures : ∃ more, later.inner.captures.toList = table.inner.captures.toList ++ more
  outer : List.Forall₂ SymbolScope.Grows table.outer later.outer

theorem Grows.advances {table later : SymbolTable} (h : table.Grows later) :
    table.Advances later :=
  ⟨Nat.le_of_eq h.inner.slots_eq.symm, h.inner.captures, h.outer⟩

theorem Advances.refl (table : SymbolTable) : Advances table table := (Grows.refl table).advances

theorem Advances.trans {a b c : SymbolTable} (hab : Advances a b) (hbc : Advances b c) :
    Advances a c where
  slots_le := Nat.le_trans hab.slots_le hbc.slots_le
  captures := by
    obtain ⟨front, hf⟩ := hab.captures
    obtain ⟨back, hb⟩ := hbc.captures
    exact ⟨front ++ back, by rw [hb, hf, List.append_assoc]⟩
  outer := forall₂_grows_trans hab.outer hbc.outer

theorem Advances.isGlobal_eq {table later : SymbolTable} (h : table.Advances later) :
    later.isGlobal = table.isGlobal := by
  obtain ⟨inner, outer⟩ := table
  obtain ⟨inner', outer'⟩ := later
  have ho : List.Forall₂ SymbolScope.Grows outer outer' := h.outer
  cases ho <;> rfl

theorem Defines.advances {table later : SymbolTable} {name : String} {symbol : Symbol}
    (h : Defines table name symbol later) : table.Advances later where
  slots_le := h.slots_le
  captures := ⟨[], by rw [h.captures_eq, List.append_nil]⟩
  outer := by rw [h.outer_eq]; exact (Grows.refl table).outer

theorem Sound.name_eq {table : SymbolTable} (h : table.Sound) {name : String} {symbol : Symbol}
    (hs : table.inner.symbols[name]? = some symbol) : symbol.name = name := by
  obtain ⟨inner, outer⟩ := table
  cases outer with
  | nil => exact SymbolScope.Outermost.name_eq h name symbol hs
  | cons next rest => exact h.1.name_eq name symbol hs

end SymbolTable

namespace Compiler

structure Sound (compiler : Compiler) : Prop where
  builder : compiler.builder.Sound
  symbols : compiler.symbols.Sound
  pool : PoolSound compiler.constants compiler.places

/-- The second compiler is sound and goes on from what the first one had. -/
structure Leads (compiler later : Compiler) : Prop where
  sound : later.Sound
  builder : compiler.builder.Extends later.builder
  pool : Pool.Extends compiler.constants later.constants
  symbols : compiler.symbols.Advances later.symbols
  enclosing : later.enclosing = compiler.enclosing

theorem Sound.leads {compiler : Compiler} (h : compiler.Sound) : compiler.Leads compiler :=
  ⟨h, .refl _, .refl _, .refl _, rfl⟩

theorem Leads.trans {a b c : Compiler} (hab : a.Leads b) (hbc : b.Leads c) : a.Leads c where
  sound := hbc.sound
  builder := hab.builder.trans hbc.builder
  pool := hab.pool.trans hbc.pool
  symbols := hab.symbols.trans hbc.symbols
  enclosing := hbc.enclosing.trans hab.enclosing

end Compiler

/-! ### Sites that a compiler can end up with -/

/-- The site is a possible outcome of what the compiler has drafted, where labels go to
`targets`. -/
structure Site.Covers (site : Site) (targets : Label → Nat) (compiler : Compiler) : Prop where
  completes : compiler.builder.Completes site.code targets
  pool : Pool.Extends compiler.constants site.pool
  locals : compiler.symbols.isGlobal = false → compiler.symbols.inner.slots ≤ site.locals
  locals_le : site.locals ≤ maxLocals
  captures : ∃ more, site.captures = compiler.symbols.inner.captures.toList ++ more
  captures_le : site.captures.length ≤ maxCaptures
  inFunction : compiler.symbols.isGlobal = false → site.inFunction = true

theorem Site.Covers.of_leads {site : Site} {targets : Label → Nat} {compiler later : Compiler}
    (h : compiler.Leads later) (hc : site.Covers targets later) : site.Covers targets compiler where
  completes := .of_extends h.builder hc.completes
  pool := h.pool.trans hc.pool
  locals := fun hg =>
    Nat.le_trans h.symbols.slots_le (hc.locals (h.symbols.isGlobal_eq.trans hg))
  locals_le := hc.locals_le
  captures := by
    obtain ⟨front, hf⟩ := h.symbols.captures
    obtain ⟨back, hb⟩ := hc.captures
    exact ⟨front ++ back, by rw [hb, hf, List.append_assoc]⟩
  captures_le := hc.captures_le
  inFunction := fun hg => hc.inFunction (h.symbols.isGlobal_eq.trans hg)

theorem Site.Covers.capture {site : Site} {targets : Label → Nat} {compiler : Compiler}
    (h : site.Covers targets compiler) {index : Nat} {found : Symbol}
    (hf : compiler.symbols.inner.captures[index]? = some found) :
    site.captures[index]? = some found := by
  obtain ⟨more, hm⟩ := h.captures
  have hi : index < compiler.symbols.inner.captures.toList.length :=
    (Array.getElem?_eq_some_iff.mp hf).1
  rw [hm, List.getElem?_append_left hi, Array.getElem?_toList, hf]

/-- From the first compiler to the second the code for `P` was drafted, and the labels that were
there were left alone. -/
structure Lays (compiler later : Compiler) (P : Site → (Label → Nat) → Prop) : Prop where
  leads : compiler.Leads later
  labels : ∀ i < compiler.builder.labels.size,
    later.builder.labels[i]? = compiler.builder.labels[i]?
  functions : Pool.VerifiedFrom compiler.constants.size later.constants
  laid : ∀ site targets, site.Covers targets later → P site targets

/-- The code drafted is one instruction of this size or nothing, and names are as before. -/
structure Appends (compiler later : Compiler) (size : Nat) (P : Site → (Label → Nat) → Prop) : Prop
    extends Lays compiler later P where
  symbols_eq : later.symbols = compiler.symbols
  size_eq : later.builder.code.size = compiler.builder.code.size + size

namespace Lays

variable {a b c : Compiler} {P Q : Site → (Label → Nat) → Prop}

theorem sound (h : Lays a b P) : b.Sound := h.leads.sound

theorem labels_size_le (h : Lays a b P) : a.builder.labels.size ≤ b.builder.labels.size := by
  by_contra hlt
  have hb := h.labels b.builder.labels.size (by omega)
  rw [Array.getElem?_eq_none (Nat.le_refl _), Array.getElem?_eq_getElem (by omega)] at hb
  cases hb

theorem andThen (h : Lays a b P) (k : Lays b c Q) :
    Lays a c fun site targets => P site targets ∧ Q site targets where
  leads := h.leads.trans k.leads
  labels := fun i hi =>
    (k.labels i (Nat.lt_of_lt_of_le hi h.labels_size_le)).trans (h.labels i hi)
  functions := .trans k.leads.pool h.functions k.functions
  laid := fun site targets hc =>
    ⟨h.laid site targets (hc.of_leads k.leads), k.laid site targets hc⟩

theorem imp (h : Lays a b P) (hi : ∀ site targets, P site targets → Q site targets) :
    Lays a b Q :=
  ⟨h.leads, h.labels, h.functions, fun site targets hc => hi site targets (h.laid site targets hc)⟩

/-- A label that was unbound stays so. -/
theorem unbound (h : Lays a b P) {label : Label} (hl : a.builder.Unbound label) :
    b.builder.Unbound label :=
  (h.labels label.index (Array.getElem?_eq_some_iff.mp hl).1).trans hl

/-- The nesting depth and the place for errors do not matter. -/
theorem ofNested {depth depth' : Nat} {span : Span}
    (h : Lays { a with depth, span } b P) : Lays a { b with depth := depth' } P where
  leads := ⟨⟨h.sound.builder, h.sound.symbols, h.sound.pool⟩, h.leads.builder, h.leads.pool,
    h.leads.symbols, h.leads.enclosing⟩
  labels := h.labels
  functions := h.functions
  laid := fun site targets hc => h.laid site targets
    ⟨hc.completes, hc.pool, hc.locals, hc.locals_le, hc.captures, hc.captures_le, hc.inFunction⟩

/-- A label created on the way can be bound. -/
theorem andBind (h : Lays a b P) (label : Label) (hn : a.builder.labels.size ≤ label.index)
    (hl : b.builder.Unbound label) :
    Lays a { b with builder := b.builder.bindLabel label } fun site targets =>
      P site targets ∧ targets label = b.builder.code.size := by
  have hleads : b.Leads { b with builder := b.builder.bindLabel label } :=
    ⟨⟨h.sound.builder.bindLabel label, h.sound.symbols, h.sound.pool⟩,
      CodeBuilder.extends_bindLabel _ label hl, .refl _, .refl _, rfl⟩
  refine ⟨h.leads.trans hleads, fun i hi => ?_, h.functions, fun site targets hc =>
    ⟨h.laid site targets (hc.of_leads hleads), ?_⟩⟩
  · dsimp only
    rw [CodeBuilder.labels_bindLabel, Array.getElem?_setIfInBounds_ne (by omega), h.labels i hi]
  · exact hc.completes.target_bindLabel label (Array.getElem?_eq_some_iff.mp hl).1

end Lays

/-! ### Steps of compiling -/

namespace Compile

variable {compiler later : Compiler}

theorem nested_eq_ok {span : Span} {body : Compile Unit}
    (h : nested span body compiler = (.ok (), later)) :
    ∃ between, body { compiler with depth := compiler.depth + 1, span } = (.ok (), between) ∧
      later = { between with depth := between.depth - 1 } := by
  unfold nested at h
  split at h
  · cases h
  · cases hb : body { compiler with depth := compiler.depth + 1, span } with
    | mk result between =>
      rw [hb] at h
      cases h
      exact ⟨between, rfl, rfl⟩

theorem checkLimit_eq_ok {count limit : Nat} {cause : Nat → CompileError.Cause}
    (h : checkLimit count limit cause compiler = (.ok (), later)) :
    count ≤ limit ∧ later = compiler := by
  unfold checkLimit at h
  split at h
  · cases h
  · cases h
    exact ⟨by omega, rfl⟩

theorem emit_apply (opcode : Opcode) (operands : List Nat) : emit opcode operands compiler =
    (.ok (), { compiler with builder := compiler.builder.emit opcode operands }) := by
  cases compiler; rfl

theorem emitJump_apply (opcode : Opcode) (label : Label) : emitJump opcode label compiler =
    (.ok (), { compiler with builder := compiler.builder.emitJump opcode label }) := by
  cases compiler; rfl

theorem createLabel_apply : createLabel compiler =
    (.ok ⟨compiler.builder.labels.size⟩,
      { compiler with builder := compiler.builder.createLabel.2 }) := by
  obtain ⟨_, _, _, builder, _, _, _, _⟩ := compiler
  cases builder; rfl

theorem bindLabel_apply (label : Label) : bindLabel label compiler =
    (.ok (), { compiler with builder := compiler.builder.bindLabel label }) := by
  cases compiler; rfl

/-- A step that changes the draft only. -/
theorem appends_builder {builder : CodeBuilder} {size : Nat} {P : Site → (Label → Nat) → Prop}
    (h : compiler.Sound) (hs : builder.Sound) (he : compiler.builder.Extends builder)
    (hz : builder.code.size = compiler.builder.code.size + size)
    (hl : ∀ i < compiler.builder.labels.size, builder.labels[i]? = compiler.builder.labels[i]?)
    (hP : ∀ site targets, site.Covers targets { compiler with builder } → P site targets) :
    Appends compiler { compiler with builder } size P where
  leads := ⟨⟨hs, h.symbols, h.pool⟩, he, .refl _, .refl _, rfl⟩
  labels := hl
  functions := Pool.verifiedFrom_size _
  laid := hP
  symbols_eq := rfl
  size_eq := hz

/-- An instruction that is emitted stands in the finished code if its operands fit. That may be
known of the finished function only. -/
theorem appends_emit {opcode : Opcode} {operands : List Nat} (h : compiler.Sound)
    (he : emit opcode operands compiler = (.ok (), later))
    (hlength : operands.length = opcode.widths.length) :
    Appends compiler later opcode.size fun site _ => Instruction.Fits operands opcode.widths →
      site.code.Holds compiler.builder.code.size ⟨opcode, operands⟩ := by
  rw [emit_apply] at he
  cases he
  exact appends_builder h (h.builder.emit ..) (CodeBuilder.extends_emit ..)
    (CodeBuilder.size_emit _ _ _ hlength) (by simp)
    fun _ _ hc hf => hc.completes.holds_emit opcode operands h.builder hf

theorem appends_instruction {opcode : Opcode} {operands : List Nat} (h : compiler.Sound)
    (he : emit opcode operands compiler = (.ok (), later))
    (hf : Instruction.Fits operands opcode.widths) :
    Appends compiler later opcode.size fun site _ =>
      site.code.Holds compiler.builder.code.size ⟨opcode, operands⟩ :=
  have ha := appends_emit h he hf.length_eq
  { ha with toLays := ha.imp fun _ _ hat => hat hf }

theorem appends_emitJump {opcode : Opcode} {label : Label} (h : compiler.Sound)
    (he : emitJump opcode label compiler = (.ok (), later)) (hw : opcode.widths = [2]) :
    Appends compiler later 3 fun site targets =>
      site.code.Holds compiler.builder.code.size ⟨opcode, [targets label]⟩ := by
  rw [emitJump_apply] at he
  cases he
  exact appends_builder h (h.builder.emitJump label hw) (CodeBuilder.extends_emitJump _ label hw)
    (CodeBuilder.size_emitJump _ label hw) (by simp)
    fun _ _ hc => hc.completes.holds_emitJump label h.builder hw

theorem appends_createLabel {label : Label} (h : compiler.Sound)
    (he : createLabel compiler = (.ok label, later)) :
    Appends compiler later 0 (fun _ _ => True) ∧ later.builder.Unbound label ∧
      label.index = compiler.builder.labels.size := by
  rw [createLabel_apply] at he
  cases he
  refine ⟨appends_builder h h.builder.createLabel (CodeBuilder.extends_createLabel _) ?_ ?_
    fun _ _ _ => trivial, ?_, rfl⟩
  · rw [CodeBuilder.code_createLabel]; rfl
  · intro i hi
    rw [CodeBuilder.labels_createLabel, Array.getElem?_push_lt hi, Array.getElem?_eq_getElem hi]
  · show _ = _
    rw [CodeBuilder.labels_createLabel, Array.getElem?_push_size]

theorem bindLabel_eq_ok {label : Label} (he : bindLabel label compiler = (.ok (), later)) :
    later = { compiler with builder := compiler.builder.bindLabel label } := by
  rw [bindLabel_apply] at he
  cases he
  rfl

/-! ### Constants -/

/-- A constant is there for good. A function has to be verified with the constants before it. -/
theorem appends_addConstant {value : Value} {index : Nat} (h : compiler.Sound)
    (ha : addConstant value compiler = (.ok index, later))
    (hvalue : ∀ id body, value = .compiled id body →
      ∃ captures, Verified compiler.constants body captures) :
    Appends compiler later 0 fun site _ =>
      index < maxConstants ∧ site.pool[index]? = some value := by
  have hmem : ∀ {key : Key}, constantKey? value = some key → key.toValue = value := by
    intro key hk
    cases value <;> cases hk <;> rfl
  unfold addConstant at ha
  split at ha
  next place hp =>
    cases ha
    obtain ⟨key, hkey, hplace⟩ := Option.bind_eq_some_iff.mp hp
    have hv := h.pool.places key index hplace
    rw [hmem hkey] at hv
    refine ⟨⟨h.leads, fun _ _ => rfl, Pool.verifiedFrom_size _,
      fun site targets hc => ⟨?_, hc.pool.getElem? hv⟩⟩, rfl, rfl⟩
    exact Nat.lt_of_lt_of_le (Array.getElem?_eq_some_iff.mp hv).1 h.pool.size_le
  next hnone =>
    obtain ⟨constants, places, symbols, builder, enclosing, depth, span, maxDepth⟩ := compiler
    unfold pushConstant at ha
    dsimp only at ha
    split at ha
    · cases ha
    next hroom =>
    cases ha
    have hpool := h.pool.push hroom value hmem
    have hext := Pool.extends_push constants value
    refine ⟨⟨⟨⟨h.builder, h.symbols, hpool⟩, .refl _, hext, .refl _, rfl⟩, fun _ _ => rfl,
      .push fun id body he => ?_, fun site targets hc => ⟨by omega, hc.pool.getElem? ?_⟩⟩, rfl, rfl⟩
    · obtain ⟨captures, hv⟩ := hvalue id body he
      exact ⟨captures, hv.mono hext⟩
    · exact Array.getElem?_push_size

/-! ### Names -/

/-- A load is one instruction. -/
theorem appends_load {symbol : Symbol} (opcode : Opcode) (operands : List Nat)
    (h : compiler.Sound) (he : loadSymbol symbol = emit opcode operands)
    (hlength : operands.length = opcode.widths.length)
    (hload : ∀ site targets, site.Covers targets compiler →
      Instruction.Fits operands opcode.widths ∧
      (site.code.Holds compiler.builder.code.size ⟨opcode, operands⟩ →
        Loads site symbol compiler.builder.code.size (compiler.builder.code.size + opcode.size)))
    (hl : loadSymbol symbol compiler = (.ok (), later)) :
    Appends compiler later opcode.size fun site _ =>
      Loads site symbol compiler.builder.code.size later.builder.code.size := by
  rw [he] at hl
  have ha := appends_emit h hl hlength
  refine { ha with laid := fun site targets hc => ?_ }
  rw [ha.size_eq]
  obtain ⟨hfits, hat⟩ := hload site targets (hc.of_leads ha.leads)
  exact hat (ha.laid site targets hc hfits)

theorem lays_loadSymbol {name : String} {symbol : Symbol} (h : compiler.Sound)
    (hf : SymbolTable.Found name symbol compiler.symbols)
    (hl : loadSymbol symbol compiler = (.ok (), later)) :
    Lays compiler later (fun site _ =>
      Loads site symbol compiler.builder.code.size later.builder.code.size) ∧
    later.symbols = compiler.symbols := by
  have hbyte : ∀ i : Nat, i < 256 → Instruction.Fits [i] [1] := fun i hi => ⟨hi, trivial⟩
  suffices hsize : ∃ size, Appends compiler later size (fun site _ =>
      Loads site symbol compiler.builder.code.size later.builder.code.size) by
    obtain ⟨size, ha⟩ := hsize
    exact ⟨ha.toLays, ha.symbols_eq⟩
  rcases h.symbols.storage_of_found hf with ⟨hst, hi⟩ | ⟨hst, builtin, hof, hname⟩ |
    ⟨hst, hg, hi⟩ | ⟨hst, found, hfound, hname⟩ | ⟨hst, hg⟩
  · exact ⟨_, appends_load .getGlobal [symbol.index] h (by rw [loadSymbol, hst]) rfl
      (fun _ _ _ => ⟨⟨hi, trivial⟩, .global hst hi⟩) hl⟩
  · have hi : symbol.index < 6 := (List.getElem?_eq_some_iff.mp hof).1
    exact ⟨_, appends_load .getBuiltin [symbol.index] h (by rw [loadSymbol, hst]) rfl
      (fun _ _ _ => ⟨hbyte _ (by omega), .builtin hst hof hname⟩) hl⟩
  · refine ⟨_, appends_load .getLocal [symbol.index] h (by rw [loadSymbol, hst]) rfl
      (fun site _ hc => ?_) hl⟩
    have hlt := Nat.lt_of_lt_of_le hi (hc.locals hg)
    exact ⟨hbyte _ (Nat.lt_of_lt_of_le hlt hc.locals_le), .slot hst hlt⟩
  · refine ⟨_, appends_load .getFree [symbol.index] h (by rw [loadSymbol, hst]) rfl
      (fun site _ hc => ?_) hl⟩
    have hat := hc.capture hfound
    have hlt := (List.getElem?_eq_some_iff.mp hat).1
    exact ⟨hbyte _ (Nat.lt_succ_of_lt (Nat.lt_of_lt_of_le hlt hc.captures_le)),
      .captured hst hat hname⟩
  · exact ⟨_, appends_load .currentClosure [] h (by rw [loadSymbol, hst]) rfl
      (fun _ _ hc => ⟨trivial, .self hst (hc.inFunction hg)⟩) hl⟩

end Compile

end Simian
