import Mathlib.Algebra.Module.Submodule.Lattice
import Simian.Proofs.ExpressionAgreement
import Simian.Proofs.SingleFrameCode
import Simian.Proofs.StackDiscipline

-- `Mathlib.Algebra.Module.Submodule.Lattice` has the equation by which `cbv` unfolds `LE.le`.

/-!
# Inline expressions in any place

The code of an inline expression does what the evaluator does, wherever the code stands
and whatever is on the stack below. It ends behind itself with the value on top, leaves
the frame with the value that a `return` gives, or fails with the error. All that is asked
for is room for the operands, levels for the nesting, and the value of each name in the
place that the name resolves to.

The proof goes by the rules of the layout, with one case for each.
-/
namespace Simian

open SymbolTable

namespace Passage

/-- What the name resolves to has the value that the evaluator gives for it. -/
def Knows (c : Passage) (name : String) : Prop :=
  ∀ symbol later, c.names.resolve name = some (symbol, later) → ∃ value : Value,
    value.isPlain = true ∧ c.evaluator.scopes.meaning? c.scope name = some value ∧
      c.start.Stores c.frame symbol value

/-- The names are known, and there are the levels and the room that the code needs. -/
structure Admits (c : Passage) (depth : Nat) (operands : List Value) (free : List String)
    (nesting need : Nat) : Prop where
  knows : ∀ name ∈ free, c.Knows name
  levels : depth + nesting ≤ c.evaluator.limits.maxDepth
  room : c.start.values.length + operands.length + need ≤ c.start.room

namespace Admits

variable {c : Passage} {depth : Nat} {operands : List Value} {free free' : List String}
  {nesting nesting' need need' : Nat}

theorem deeper (h : c.Admits depth operands free (nesting + 1) need) :
    c.Admits (depth + 1) operands free nesting need :=
  ⟨h.knows, by have := h.levels; omega, h.room⟩

theorem lt (h : c.Admits depth operands free (nesting + 1) need) :
    depth < c.evaluator.limits.maxDepth := by
  have := h.levels
  omega

theorem push_lt (h : c.Admits depth operands free nesting need) (hn : 0 < need) :
    c.start.values.length + operands.length < c.start.room := by
  have := h.room
  omega

theorem left
    (h : c.Admits depth operands (free ++ free') (max nesting nesting') (max need need')) :
    c.Admits depth operands free nesting need where
  knows := fun name hn => h.knows name (List.mem_append_left _ hn)
  levels := by
    have := h.levels
    omega
  room := by
    have := h.room
    omega

/-- The second part where the first one has left nothing. -/
theorem right
    (h : c.Admits depth operands (free ++ free') (max nesting nesting') (max need need')) :
    c.Admits depth operands free' nesting' need' where
  knows := fun name hn => h.knows name (List.mem_append_right _ hn)
  levels := by
    have := h.levels
    omega
  room := by
    have := h.room
    omega

/-- The second part on top of the value of the first one. -/
theorem above (h : c.Admits depth operands free nesting (need + 1)) (value : Value) :
    c.Admits depth (operands ++ [value]) free nesting need where
  knows := h.knows
  levels := h.levels
  room := by
    have := h.room
    rw [List.length_append, List.length_singleton]
    omega

theorem sub (h : c.Admits depth operands free nesting need) (hf : ∀ name ∈ free', name ∈ free)
    (hn : nesting' ≤ nesting) (hr : need' ≤ need) :
    c.Admits depth operands free' nesting' need' where
  knows := fun name hm => h.knows name (hf name hm)
  levels := by
    have := h.levels
    omega
  room := by
    have := h.room
    omega

end Admits

/-- Names are resolved in a sound table, and the one behind grows to the last one. -/
structure Within (c : Passage) (table later : SymbolTable) : Prop where
  sound : table.Sound
  grows : List.Forall₂ SymbolScope.Grows later.scopes c.names.scopes

namespace Within

variable {c : Passage} {table mid later : SymbolTable} {names : List String}

theorem left (h : c.Within table later) (ha : mid.Adds names later) : c.Within table mid :=
  ⟨h.sound, forall₂_grows_trans ha.grown.grows h.grows⟩

theorem right (h : c.Within table later) (ha : table.Adds names mid) : c.Within mid later :=
  ⟨ha.sound, h.grows⟩

end Within

variable {c : Passage} {depth ip next : Nat} {operands : List Value} {evaluator : Evaluator}
  {s : Snapshot} {table later : SymbolTable}

/-- A name gives the same value on both engines. -/
theorem Stands.lookUp (h : c.Stands depth ip operands evaluator s) (hw : c.Within table later)
    {name : String} {symbol : Symbol} (hk : c.Knows name)
    (hr : table.resolve name = some (symbol, later)) (hl : Loads c.site symbol ip next)
    (hroom : c.start.values.length + operands.length < c.start.room) :
    c.Follows s (Eval.lookUp c.scope name evaluator) (c.Gives depth next operands) := by
  obtain ⟨after, hafter⟩ := resolve_of_grows hw.sound hr c.sound hw.grows
  obtain ⟨value, hplain, hmeaning, hkept⟩ := hk symbol after hafter
  have hscopes : evaluator.scopes = c.evaluator.scopes := by rw [h.evaluator]
  rw [← hscopes] at hmeaning
  rw [Eval.lookUp_of_meaning hmeaning]
  exact h.load hl hkept hplain hroom

end Passage

open Passage

variable {run : Nat → Block → Eval Value}

mutual

theorem ExprAt.follows {tree : Expr} {site : Site} {t t' : SymbolTable} {p q : Nat}
    (hat : ExprAt site t p tree t' q) {c : Passage} {depth : Nat} {operands : List Value}
    {evaluator : Evaluator} {s : Snapshot} (hsite : c.site = site) (hi : tree.isInline = true)
    (hw : c.Within t t') (ha : c.Admits depth operands tree.free tree.nesting tree.height)
    (h : c.Stands depth p operands evaluator s) :
    c.Follows s (Eval.expr (Eval.applyWith run) c.scope tree evaluator)
      (c.Gives depth q operands) := by
  have hroom := ha.push_lt tree.height_pos
  match hat with
  | .integer _ hpool hload =>
    rw [Eval.expr]
    exact h.nested ha.lt fun _ h =>
      follows_of_gives (h.constant (hsite ▸ hload) (hsite ▸ hpool) rfl hroom)
  | .string _ hpool hload =>
    rw [Eval.expr]
    exact h.nested ha.lt fun _ h =>
      follows_of_gives (h.constant (hsite ▸ hload) (hsite ▸ hpool) rfl hroom)
  | .boolean hpush =>
    rw [Eval.expr]
    exact h.nested ha.lt fun _ h => follows_of_gives (h.pushBool _ (hsite ▸ hpush) hroom)
  | .ident hr hl =>
    rw [Eval.expr]
    exact h.nested ha.lt fun _ h =>
      h.lookUp hw (ha.knows _ (List.mem_singleton_self _)) hr (hsite ▸ hl) hroom
  | .unary ho hop =>
    rw [Eval.expr]
    refine h.nested ha.lt fun _ h => ?_
    refine (ho.follows hsite hi hw ha.deeper h).bind ?_
    intro value _ _ h
    exact h.unary _ (hsite ▸ hop) hroom
  | .binary hl hr hop =>
    rw [Expr.isInline, Bool.and_eq_true] at hi
    have hleft := hl.adds (Expr.isDirect_of_isInline hi.1) hw.sound
    have hright := hr.adds (Expr.isDirect_of_isInline hi.2) hleft.sound
    rw [Eval.expr]
    refine h.nested ha.lt fun _ h => ?_
    refine (hl.follows hsite hi.1 (hw.left hright) ha.deeper.left h).bind ?_
    intro left _ _ h
    refine (hr.follows hsite hi.2 (hw.right hleft) (ha.deeper.right.above left) h).bind ?_
    intro right _ _ h
    exact h.binary _ (hsite ▸ hop) hroom
  | .and hl htest hr htest' htrue hjump hfalse =>
    rw [Expr.isInline, Bool.and_eq_true] at hi
    have hleft := hl.adds (Expr.isDirect_of_isInline hi.1) hw.sound
    have hright := hr.adds (Expr.isDirect_of_isInline hi.2) hleft.sound
    rw [Eval.expr]
    refine h.nested ha.lt fun _ h => ?_
    refine (hl.follows hsite hi.1 (hw.left hright) ha.deeper.left h).bind ?_
    intro left _ _ h
    refine .of_comes ((h.jumpNotTruthy (hsite ▸ htest)).imp fun _ h => ?_)
    cases htruth : left.isTruthy with
    | false =>
      rw [htruth] at h
      exact follows_of_gives (h.pushBool false (hsite ▸ hfalse) hroom)
    | true =>
      rw [htruth] at h
      refine (hr.follows hsite hi.2 (hw.right hleft) ha.deeper.right h).bind ?_
      intro right _ _ h
      exact follows_of_gives
        (h.truth (hsite ▸ htest') (hsite ▸ htrue) (hsite ▸ hjump) (hsite ▸ hfalse) hroom)
  | .or hl htest htrue' hjump' hr htest' htrue hjump hfalse =>
    rw [Expr.isInline, Bool.and_eq_true] at hi
    have hleft := hl.adds (Expr.isDirect_of_isInline hi.1) hw.sound
    have hright := hr.adds (Expr.isDirect_of_isInline hi.2) hleft.sound
    rw [Eval.expr]
    refine h.nested ha.lt fun _ h => ?_
    refine (hl.follows hsite hi.1 (hw.left hright) ha.deeper.left h).bind ?_
    intro left _ _ h
    refine .of_comes ((h.jumpNotTruthy (hsite ▸ htest)).imp fun _ h => ?_)
    cases htruth : left.isTruthy with
    | false =>
      rw [htruth] at h
      refine (hr.follows hsite hi.2 (hw.right hleft) ha.deeper.right h).bind ?_
      intro right _ _ h
      exact follows_of_gives
        (h.truth (hsite ▸ htest') (hsite ▸ htrue) (hsite ▸ hjump) (hsite ▸ hfalse) hroom)
    | true =>
      rw [htruth] at h
      exact follows_of_gives ((h.pushBool true (hsite ▸ htrue') hroom).bind fun _ h =>
        h.jump (hsite ▸ hjump'))
  | .bump ho _ hpool hload hop =>
    rw [Eval.expr]
    refine h.nested ha.lt fun _ h => ?_
    refine (ho.follows hsite hi hw (ha.deeper.sub (fun _ hn => hn) (Nat.le_refl _)
      (Nat.le_max_left ..)) h).bind ?_
    intro value _ _ h
    have htwo := ha.room
    rw [Expr.height] at htwo
    have hroom' : c.start.values.length + (operands ++ [value]).length < c.start.room := by
      rw [List.length_append, List.length_singleton]
      omega
    refine .of_comes ((h.constant (hsite ▸ hload) (hsite ▸ hpool) rfl hroom').imp fun _ h => ?_)
    exact h.binary _ (hsite ▸ hop) hroom
  | .ifThen hc htest hb hjump hnull =>
    rw [Expr.isInline, Bool.and_eq_true] at hi
    have hcondition := hc.adds (Expr.isDirect_of_isInline hi.1) hw.sound
    have hblock := hb.adds (areDirectInBlock_of_inline hi.2) hcondition.sound
    rw [Eval.expr]
    refine h.nested ha.lt fun _ h => ?_
    refine (hc.follows hsite hi.1 (hw.left hblock) ha.deeper.left h).bind ?_
    intro condition _ _ h
    refine .of_comes ((h.jumpNotTruthy (hsite ▸ htest)).imp fun _ h => ?_)
    cases htruth : condition.isTruthy with
    | false =>
      rw [htruth] at h
      exact follows_of_gives (h.pushNull (hsite ▸ hnull) hroom)
    | true =>
      rw [htruth] at h
      rw [if_pos rfl, Eval.block]
      refine (hb.follows rfl hsite hi.2 (hw.right hcondition) ha.deeper.right h
        fun _ => rfl).andThen ?_
      intro value _ _ h
      exact h.jump (hsite ▸ hjump)
  | .ifElse hc htest hb hjump hb' =>
    rw [Expr.isInline, Bool.and_eq_true, Bool.and_eq_true] at hi
    have hcondition := hc.adds (Expr.isDirect_of_isInline hi.1) hw.sound
    have hfirst := hb.adds (areDirectInBlock_of_inline hi.2.1) hcondition.sound
    have hsecond := hb'.adds (areDirectInBlock_of_inline hi.2.2) hfirst.sound
    rw [Eval.expr]
    refine h.nested ha.lt fun _ h => ?_
    refine (hc.follows hsite hi.1 (hw.left (hfirst.trans hsecond)) ha.deeper.left h).bind ?_
    intro condition _ _ h
    refine .of_comes ((h.jumpNotTruthy (hsite ▸ htest)).imp fun _ h => ?_)
    have hw' := hw.right hcondition
    cases htruth : condition.isTruthy with
    | false =>
      rw [htruth] at h
      rw [if_neg Bool.false_ne_true, Eval.block]
      exact hb'.follows rfl hsite hi.2.2 (hw'.right hfirst) ha.deeper.right.right h fun _ => rfl
    | true =>
      rw [htruth] at h
      rw [if_pos rfl, Eval.block]
      refine (hb.follows rfl hsite hi.2.1 (hw'.left hsecond) ha.deeper.right.left h
        fun _ => rfl).andThen ?_
      intro value _ _ h
      exact h.jump (hsite ▸ hjump)
  | .function .. => cases hi
  | .array _ he hmake =>
    rw [Eval.expr]
    refine h.nested ha.lt fun _ h => ?_
    have hitems := ha.deeper.sub (fun _ hn => hn) (Nat.le_refl _) (Nat.le_max_right ..)
    rw [← List.append_nil operands] at h hitems
    refine (he.follows hsite hi hw hitems h).bind ?_
    rintro results _ _ ⟨hlength, h⟩
    rw [List.length_nil, Nat.zero_add] at hlength
    exact follows_of_gives (h.array (hsite ▸ hlength ▸ hmake) hroom)
  | .hash _ he hmake =>
    rw [Eval.expr]
    refine h.nested ha.lt fun _ h => ?_
    have hpairs := ha.deeper.sub (fun _ hn => hn) (Nat.le_refl _) (Nat.le_max_right ..)
    rw [← List.append_nil operands, ← show flat [] = [] from rfl] at h hpairs
    refine (he.follows hsite hi hw hpairs h).bind ?_
    rintro results _ _ ⟨hlength, h⟩
    rw [List.length_nil, Nat.zero_add] at hlength
    exact h.hash (hsite ▸ hlength ▸ hmake) hroom
  | .call _ hc hargs hgo =>
    rw [Expr.isInline, Bool.and_eq_true] at hi
    have hcallee := hc.adds (Expr.isDirect_of_isInline hi.1) hw.sound
    have harguments := hargs.adds (areDirectExprs_of_inline hi.2) hcallee.sound
    rw [Eval.expr]
    refine h.nested ha.lt fun _ h => ?_
    refine (hc.follows hsite hi.1 (hw.left harguments) ha.deeper.left h).bind ?_
    intro callee _ _ h
    have hitems := ha.deeper.right.above callee
    rw [Gives, ← List.append_nil (_ ++ _)] at h
    rw [← List.append_nil (_ ++ _)] at hitems
    refine (hargs.follows hsite hi.2 (hw.right hcallee) hitems h).bind ?_
    rintro results _ _ ⟨hlength, h⟩
    rw [List.length_nil, Nat.zero_add] at hlength
    rw [List.append_assoc] at h
    exact h.call (hsite ▸ hlength ▸ hgo) hroom
  | .index hc hk hop =>
    rw [Expr.isInline, Bool.and_eq_true] at hi
    have hcollection := hc.adds (Expr.isDirect_of_isInline hi.1) hw.sound
    have hkey := hk.adds (Expr.isDirect_of_isInline hi.2) hcollection.sound
    rw [Eval.expr]
    refine h.nested ha.lt fun _ h => ?_
    refine (hc.follows hsite hi.1 (hw.left hkey) ha.deeper.left h).bind ?_
    intro collection _ _ h
    refine (hk.follows hsite hi.2 (hw.right hcollection) (ha.deeper.right.above collection)
      h).bind ?_
    intro key _ _ h
    exact h.index (hsite ▸ hop) hroom

theorem ExprsAt.follows {items : List Expr} {site : Site} {t t' : SymbolTable} {p q : Nat}
    (hat : ExprsAt site t p items t' q) {c : Passage} {depth : Nat} {operands taken : List Value}
    {evaluator : Evaluator} {s : Snapshot} (hsite : c.site = site)
    (hi : areInlineExprs items = true) (hw : c.Within t t')
    (ha : c.Admits depth (operands ++ taken) (freeInExprs items) (nestingOfExprs items)
      (heightOfExprs items))
    (h : c.Stands depth p (operands ++ taken) evaluator s) :
    c.Follows s (Eval.exprs (Eval.applyWith run) c.scope taken.reverse items evaluator)
      fun results later t => results.length = taken.length + items.length ∧
        c.Stands depth q (operands ++ results) later t := by
  match hat with
  | .nil =>
    rw [Eval.exprs, List.reverse_reverse]
    exact .here ⟨rfl, h⟩
  | .cons hitem hr =>
    rw [areInlineExprs, Bool.and_eq_true] at hi
    have hfirst := hitem.adds (Expr.isDirect_of_isInline hi.1) hw.sound
    have hrest := hr.adds (areDirectExprs_of_inline hi.2) hfirst.sound
    rw [Eval.exprs]
    refine (hitem.follows hsite hi.1 (hw.left hrest) ha.left h).bind ?_
    intro value _ _ h
    have hmore := ha.right.above value
    rw [Gives, List.append_assoc] at h
    rw [List.append_assoc] at hmore
    rw [← List.reverse_concat']
    refine (hr.follows hsite hi.2 (hw.right hfirst) hmore h).imp ?_
    rintro results _ _ ⟨hlength, h⟩
    refine ⟨?_, h⟩
    rw [hlength, List.length_append, List.length_singleton, List.length_cons]
    omega

theorem EntriesAt.follows {pairs : List (Expr × Expr)} {site : Site} {t t' : SymbolTable}
    {p q : Nat} (hat : EntriesAt site t p pairs t' q) {c : Passage} {depth : Nat}
    {operands : List Value} {taken : List (Value × Value)} {evaluator : Evaluator} {s : Snapshot}
    (hsite : c.site = site) (hi : areInlineEntries pairs = true) (hw : c.Within t t')
    (ha : c.Admits depth (operands ++ flat taken) (freeInEntries pairs) (nestingOfEntries pairs)
      (heightOfEntries pairs))
    (h : c.Stands depth p (operands ++ flat taken) evaluator s) :
    c.Follows s (Eval.entries (Eval.applyWith run) c.scope taken.reverse pairs evaluator)
      fun results later t => results.length = taken.length + pairs.length ∧
        c.Stands depth q (operands ++ flat results) later t := by
  match hat with
  | .nil =>
    rw [Eval.entries, List.reverse_reverse]
    exact .here ⟨rfl, h⟩
  | .cons hk hv hr =>
    rw [areInlineEntries, Bool.and_eq_true, Bool.and_eq_true] at hi
    have hkey := hk.adds (Expr.isDirect_of_isInline hi.1) hw.sound
    have hvalue := hv.adds (Expr.isDirect_of_isInline hi.2.1) hkey.sound
    have hrest := hr.adds (areDirectEntries_of_inline hi.2.2) hvalue.sound
    have hw' := hw.right hkey
    rw [Eval.entries]
    refine (hk.follows hsite hi.1 (hw.left (hvalue.trans hrest)) ha.left h).bind ?_
    intro key _ _ h
    have hbehind := ha.right.above key
    refine (hv.follows hsite hi.2.1 (hw'.left hrest) hbehind.left h).bind ?_
    intro value _ _ h
    have hmore := hbehind.right.above value
    have hflat : operands ++ flat taken ++ [key] ++ [value] =
        operands ++ flat (taken ++ [(key, value)]) := by
      simp [flat]
    rw [Gives, hflat] at h
    rw [hflat] at hmore
    rw [← List.reverse_concat']
    refine (hr.follows hsite hi.2.2 (hw'.right hvalue) hmore h).imp ?_
    rintro results _ _ ⟨hlength, h⟩
    refine ⟨?_, h⟩
    rw [hlength, List.length_append, List.length_singleton, List.length_cons]
    omega

/-- A statement that binds nothing. -/
theorem StmtAt.follows {statement : Stmt} {site : Site} {t t' : SymbolTable} {p q : Nat}
    (hat : StmtAt site t p statement t' q) {c : Passage} {depth : Nat} {operands : List Value}
    {evaluator : Evaluator} {s : Snapshot} (hsite : c.site = site)
    (hi : statement.isInline = true) (hw : c.Within t t')
    (ha : c.Admits depth operands (freeInStmts [statement]) statement.nesting statement.height)
    (h : c.Stands depth p operands evaluator s) :
    c.Follows s (Eval.stmt (Eval.applyWith run) c.scope statement evaluator)
      fun result later t => ∃ tree span value, statement = .expr tree span ∧ result = some value ∧
        c.Stands depth q operands later t := by
  match hat with
  | .bindGlobal .. | .bindLocal .. => cases hi
  | .ret he hret =>
    rw [Eval.stmt]
    refine (he.follows hsite hi hw (ha.sub (fun _ => List.mem_append_left _) (Nat.le_refl _)
      (Nat.le_refl _)) h).bind ?_
    intro value _ _ h
    exact .here (h.leaves (hsite ▸ hret))
  | .retNull hret =>
    rw [Eval.stmt]
    exact .here (h.leaves_null (hsite ▸ hret))
  | .expr he hpop =>
    rw [Eval.stmt]
    refine (he.follows hsite hi hw (ha.sub (fun _ => List.mem_append_left _) (Nat.le_refl _)
      (Nat.le_refl _)) h).bind ?_
    intro value _ _ h
    exact (h.drop (hsite ▸ hpop)).imp fun _ h => ⟨_, _, value, rfl, rfl, h⟩

/-- A block leaves the value of its last statement. -/
theorem TailAt.follows {closing : Closing} {statements : List Stmt} {site : Site}
    {t t' : SymbolTable} {p q : Nat} (hat : TailAt closing site t p statements t' q)
    {c : Passage} {depth : Nat} {operands : List Value} {evaluator : Evaluator} {s : Snapshot}
    (hclosing : closing = .leaves) (hsite : c.site = site)
    (hi : areInlineStmts statements = true) (hw : c.Within t t')
    (ha : c.Admits depth operands (freeInStmts statements) (nestingOfStmts statements)
      (heightOfStmts statements))
    (h : c.Stands depth p operands evaluator s) {last : Value}
    (hlast : statements = [] → last = .null) :
    c.Follows s (Eval.stmts (Eval.applyWith run) c.scope last statements evaluator)
      (c.Gives depth q operands) := by
  match hat with
  | .nil hnull =>
    rw [Eval.stmts, hlast rfl]
    rw [hclosing] at hnull
    exact follows_of_gives (h.pushNull (hsite ▸ hnull) (ha.push_lt Nat.one_pos))
  | .bind .. => cases hi
  | .ret hst | .retNull hst =>
    rw [areInlineStmts, Bool.and_eq_true] at hi
    rw [Eval.stmts]
    refine (hst.follows hsite hi.1 hw (ha.sub (fun _ hn => hn) (Nat.le_max_left ..)
      (Nat.le_max_left ..)) h).bind ?_
    rintro _ _ _ ⟨_, _, _, hne, _⟩
    cases hne
  | .value he =>
    rw [areInlineStmts, Bool.and_eq_true] at hi
    rw [Eval.stmts, Eval.stmt]
    refine Follows.bind (?_ : c.Follows s _ fun result later t =>
      ∃ value, result = some value ∧ c.Gives depth q operands value later t) ?_
    · refine (he.follows hsite hi.1 hw (ha.sub (fun _ => List.mem_append_left _)
        (Nat.le_max_left ..) (Nat.le_max_left ..)) h).bind fun value _ _ h => ?_
      exact .here ⟨value, rfl, h⟩
    · rintro _ _ _ ⟨value, rfl, h⟩
      rw [Eval.stmts]
      exact .here h
  | .result _ _ => cases hclosing
  | .cons hst hrest =>
    have hfirst := hst.adds (areDirectInBlock_of_inline hi) hw.sound
    rw [areInlineStmts, Bool.and_eq_true] at hi
    have hmore := hrest.adds (areDirectInBlock_of_inline hi.2) hfirst.sound
    rw [Eval.stmts]
    refine (hst.follows hsite hi.1 (hw.left hmore) (ha.sub
      (fun _ hn => mem_freeInStmts_cons.mpr (.inl hn)) (Nat.le_max_left ..)
      (Nat.le_max_left ..)) h).bind ?_
    rintro _ _ _ ⟨_, _, value, rfl, rfl, h⟩
    exact hrest.follows hclosing hsite hi.2 (hw.right hfirst) (ha.sub
      (fun _ => List.mem_append_right _) (Nat.le_max_right ..) (Nat.le_max_right ..)) h nofun

end

/-! ### The machine itself -/

namespace Machine

/-- What the machine holds is stepped through by the machine. -/
theorem runs_of_reaches {machine : Machine} {s : Snapshot} (h : machine.view.Reaches s) :
    ∃ later, machine.Runs (fun _ => True) later ∧ later.view = s := by
  induction h with
  | refl => exact ⟨machine, .refl, rfl⟩
  | step _ hstep ih =>
    obtain ⟨before, hbefore, rfl⟩ := ih
    obtain ⟨after, hafter, hview⟩ := running_of_goes hstep
    exact ⟨after, hbefore.step trivial hafter, hview⟩

/-- The machine, in the frame above these others, comes to what the evaluator comes to: behind the
code with the value on the stack, out of the frame with the value returned, or to the error. It has
written the same, and nothing else has changed but the value that was dropped last. -/
def Simulates (machine : Machine) (frame : Frame) (rest : List Frame) (next : Nat) :
    Except Unwind Value × Evaluator → Prop
  | (.ok value, evaluator) => ∃ later, machine.Runs (fun _ => True) later ∧
    later.view = { machine.view with
      calls := { frame with ip := next } :: rest, values := machine.view.values ++ [value]
      sink := evaluator.sink, lastPopped := later.lastPopped }
  | (.error (.returned value), evaluator) => ∃ later ip operands,
    machine.Runs (fun _ => True) later ∧ turn (Run.step later) = Snapshot.leave { machine.view with
      calls := { frame with ip } :: rest, values := machine.view.values ++ operands
      sink := evaluator.sink, lastPopped := later.lastPopped } value
  | (.error (.failed error), evaluator) => ∃ later fault after, machine.Runs (fun _ => True) later ∧
    Run.step later = (.error fault, after) ∧ fault.Is error ∧ after.sink = evaluator.sink

theorem simulates_of_follows {machine : Machine} {c : Passage} {next : Nat}
    {outcome : Except Unwind Value × Evaluator} (hstart : c.start = machine.view) {depth : Nat}
    (h : c.Follows machine.view outcome (c.Gives depth next [])) :
    machine.Simulates c.frame c.rest next outcome := by
  obtain ⟨result, evaluator⟩ := outcome
  cases result with
  | ok value =>
    obtain ⟨s, hs, hgives⟩ := h
    obtain ⟨later, hlater, rfl⟩ := runs_of_reaches hs
    refine ⟨later, hlater, ?_⟩
    rw [← hstart]
    exact hgives.machine
  | error unwind =>
    cases unwind with
    | returned value =>
      obtain ⟨s, hs, ip, operands, hstep⟩ := h
      obtain ⟨later, hlater, rfl⟩ := runs_of_reaches hs
      refine ⟨later, ip, operands, hlater, ?_⟩
      rw [← hstart, step_eq]
      exact hstep
    | failed error =>
      obtain ⟨s, hs, fault, t, hstep, hfault, hsink⟩ := h
      obtain ⟨later, hlater, rfl⟩ := runs_of_reaches hs
      obtain ⟨after, hafter, rfl⟩ := error_of_fails hstep
      exact ⟨later, fault, after, hlater, hafter, hfault, hsink⟩

end Machine

namespace Compiler

/-- Wherever an inline expression compiles to, its code does what the evaluator does. -/
theorem simulates_of_expr {compiler later : Compiler} {tree : Expr} (h : compiler.Sound)
    (hc : Compile.expr tree compiler = (.ok (), later)) (hi : tree.isInline = true)
    {site : Site} {targets : Label → Nat} (hsite : site.Covers targets later)
    {machine : Machine} {frame : Frame} {rest : List Frame}
    (hframes : machine.view.calls = frame :: rest) (hcode : frame.body.code = site.code)
    (hip : frame.ip = compiler.builder.code.size) (hpool : machine.constants = site.pool)
    (hroom : machine.stack.size + tree.height ≤ machine.stack.capacity)
    {evaluator : Evaluator} {scope : Nat} (hsink : machine.sink = evaluator.sink)
    (hlevels : evaluator.depth + tree.nesting ≤ evaluator.limits.maxDepth)
    (hnames : ∀ name ∈ tree.free, ∀ symbol table,
      later.symbols.resolve name = some (symbol, table) → ∃ value : Value, value.isPlain = true ∧
        evaluator.scopes.meaning? scope name = some value ∧
        machine.view.Stores frame symbol value) (callsLeft : Nat) :
    machine.Simulates frame rest later.builder.code.size
      (Eval.expr (Eval.apply callsLeft) scope tree evaluator) := by
  have hlaid := Compile.lays_expr tree h hc
  have hat := hlaid.laid site targets hsite
  let c : Passage := {
    site, frame, rest, start := machine.view, evaluator, scope, names := later.symbols
    code_eq := hcode, pool_eq := hpool, sound := hlaid.sound.symbols }
  have hwithin : c.Within compiler.symbols later.symbols :=
    ⟨h.symbols, List.forall₂_same.mpr fun scope _ => .refl scope⟩
  have hadmits : c.Admits evaluator.depth [] tree.free tree.nesting tree.height :=
    ⟨hnames, hlevels, machine.length_values.symm ▸ hroom⟩
  have hstands : c.Stands evaluator.depth compiler.builder.code.size [] evaluator machine.view := by
    have hcalls : { frame with ip := compiler.builder.code.size } :: rest = machine.view.calls := by
      rw [hframes, ← hip]
    refine ⟨?_, rfl, List.forall_mem_nil _⟩
    rw [state, List.append_nil, hcalls, ← hsink]
    rfl
  have hcall : ∃ run, Eval.apply callsLeft = Eval.applyWith run := by
    cases callsLeft <;> exact ⟨_, rfl⟩
  obtain ⟨run, hrun⟩ := hcall
  rw [hrun]
  exact Machine.simulates_of_follows rfl (hat.follows rfl hi hwithin hadmits hstands)

/-- `if (x > 1) { return x * 2; } else { puts(x) }` in a function behind other code. -/
theorem simulates_return_in_block : ∃ (tree : Expr) (compiler later : Compiler) (machine : Machine)
    (frame caller : Frame) (evaluator : Evaluator),
    Compile.expr tree compiler = (.ok (), later) ∧ machine.frames.frames = [frame, caller] ∧
      (Eval.expr (Eval.apply 4) 0 tree evaluator).1 = .error (.returned (.int 10)) ∧
      machine.Simulates frame [caller] later.builder.code.size
        (Eval.expr (Eval.apply 4) 0 tree evaluator) := by
  let tree : Expr := .ifElse (.binary .gt (.ident "x" .zero) (.integer 1 .zero) .zero)
    (.mk [.ret (.binary .mul (.ident "x" .zero) (.integer 2 .zero) .zero) .zero] .zero)
    (.mk [.expr (.call (.ident "puts" .zero) [.ident "x" .zero] .zero) .zero] .zero) .zero
  let compiler : Compiler := { create 64 with
    symbols := (create 64).symbols.opened none ["x"]
    builder := (CodeBuilder.empty.emit .pushNull []).emit .pop [] }
  let later : Compiler := (Compile.expr tree compiler).2
  let code : Code := #[9, 1, 22, 0, 0, 0, 0, 12, 18, 0, 21, 22, 0, 0, 0, 1, 4, 31, 19, 0, 27, 24, 1,
    22, 0, 30, 1]
  let frame : Frame := ⟨1, ⟨some "f", code, 1, 1⟩, [], 2, 1⟩
  let caller : Frame := Machine.mainFrame 0 #[]
  let machine : Machine := { Machine.create .default (.opened .off) with
    constants := #[.int 1, .int 2]
    stack := .ofList [.closure 1 frame.body [], .int 5] 16
    frames := ⟨[frame, caller], 2, 1024, rfl, by decide⟩ }
  let evaluator : Evaluator :=
    { Evaluator.create ⟨64, 16⟩ with scopes := Scopes.create.set 0 "x" (.int 5) }
  have hready := ready_create 64
  have h : compiler.Sound := ⟨(CodeBuilder.sound_empty.emit _ _).emit _ _,
    SymbolTable.sound_opened hready.symbols none ["x"], hready.pool⟩
  have hc : Compile.expr tree compiler = (.ok (), later) := Prod.ext (by cbv) rfl
  have hfinish : later.builder.finish = .ok code := by cbv
  have hconstants : later.constants = #[.int 1, .int 2] := by cbv
  have hslots : later.symbols.inner.slots = 1 := by cbv
  have hcaptures : later.symbols.inner.captures = #[] := by cbv
  have hx : (later.symbols.resolve "x").map Prod.fst = some ⟨"x", .localSlot, 0⟩ := by cbv
  have hputs : (later.symbols.resolve "puts").map Prod.fst = some ⟨"puts", .builtin, 1⟩ := by cbv
  have hmeans : evaluator.scopes.meaning? 0 "x" = some (.int 5) := by cbv
  have hmeans' : evaluator.scopes.meaning? 0 "puts" = some (.builtin .puts) := by cbv
  have hsite : Site.Covers ⟨later.constants, code, 1, [], true⟩
      (CodeBuilder.target later.builder.labels code.size) later := by
    refine ⟨(CodeBuilder.completes_finish (Compile.lays_expr tree h hc).sound.builder hfinish).1,
      .refl _, fun _ => Nat.le_of_eq hslots, by decide, ⟨[], by rw [hcaptures]; rfl⟩, by decide,
      fun _ => rfl⟩
  refine ⟨tree, compiler, later, machine, frame, caller, evaluator, hc, rfl, by cbv, ?_⟩
  refine simulates_of_expr h hc rfl hsite rfl rfl (by cbv) hconstants.symm (by decide) rfl
    (by decide) ?_ 4
  have hnames : ∀ name ∈ tree.free, name = "x" ∨ name = "puts" := by decide
  intro name hm symbol table hr
  rcases hnames name hm with rfl | rfl
  · rw [hr] at hx
    cases hx
    exact ⟨.int 5, rfl, hmeans, rfl⟩
  · rw [hr] at hputs
    cases hputs
    exact ⟨.builtin .puts, rfl, hmeans', rfl⟩

end Compiler

end Simian
