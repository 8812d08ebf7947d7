import Simian.Proofs.InstructionEffects
import Simian.Proofs.Layout

/-!
# Laid code is verified

A stretch of code is clean if instructions tile it and each of them is allowed where it
stands, and it gives a number of values if running through it leaves that many more on
the stack. Every layout rule gives a stretch of this kind, by recursion on the tree: an
expression gives one value and a statement none. The body of a function literal is a
verified function then.
-/
namespace Simian

/-- The operands of the instruction are good at the site. -/
def Site.Permits (site : Site) (instruction : Instruction) : Prop :=
  instruction.Legal site.pool site.code site.locals site.captures.length site.inFunction

/-- The instruction may stand at the offset in the code of the site. -/
structure Site.Allows (site : Site) (offset : Nat) (instruction : Instruction) : Prop where
  legal : site.Permits instruction
  forward : instruction.Forward offset
  verified : ∀ id inner, instruction.opcode = .closure →
    site.pool[instruction.operand 0]? = some (.compiled id inner) →
    Verified site.pool inner (instruction.operand 1)

/-- Instructions tile the stretch, if it starts at one, and all of them are allowed. -/
structure Site.Clean (site : Site) (p q : Nat) : Prop where
  le : p ≤ q
  boundary : site.code.Boundary p → site.code.Boundary q
  allows : site.code.Boundary p → ∀ offset instruction, p ≤ offset → offset < q →
    site.code.Boundary offset → site.code.Holds offset instruction → site.Allows offset instruction

/-- The stretch is clean, and whoever runs through it has this many values more. -/
structure Site.Gives (site : Site) (values : Nat) (p q : Nat) : Prop where
  clean : site.Clean p q
  balanced : ∀ {limit : Nat} {ends : Nat → Prop} (depth : Nat),
    site.code.Balanced limit ends q (depth + values) → site.code.Balanced limit ends p depth

namespace Site

variable {site : Site} {p m q : Nat}

theorem Clean.refl (p : Nat) : site.Clean p p :=
  ⟨Nat.le_refl _, id, fun _ _ _ hle hlt => absurd hle (Nat.not_le_of_lt hlt)⟩

theorem Clean.trans (h : site.Clean p m) (k : site.Clean m q) : site.Clean p q where
  le := Nat.le_trans h.le k.le
  boundary := fun hb => k.boundary (h.boundary hb)
  allows := by
    intro hb offset instruction hle hlt hat hholds
    by_cases hm : offset < m
    · exact h.allows hb offset instruction hle hm hat hholds
    · exact k.allows (h.boundary hb) offset instruction (by omega) hlt hat hholds

theorem Clean.instruction {instruction : Instruction} (h : site.code.Holds p instruction)
    (ha : site.code.Boundary p → site.Allows p instruction) :
    site.Clean p (p + instruction.size) where
  le := Nat.le_add_right _ _
  boundary := fun hb => .next hb h
  allows := by
    intro hb offset other hle hlt hat hholds
    rcases Nat.eq_or_lt_of_le hle with rfl | hgt
    · rw [hholds.unique h]
      exact ha hb
    · have := Code.Boundary.apart offset hat hb h hgt
      omega

/-- An instruction that is no closure is allowed if its operands are legal. -/
theorem Allows.of_legal {instruction : Instruction}
    (h : site.Permits instruction) (hf : instruction.Forward p)
    (hne : instruction.opcode ≠ .closure) : site.Allows p instruction :=
  ⟨h, hf, fun _ _ ho => absurd ho hne⟩

theorem Clean.jump {opcode : Opcode} {target : Nat} (h : site.code.Holds p ⟨opcode, [target]⟩)
    (ho : opcode = .jump ∨ opcode = .jumpNotTruthy) (hlt : p < target)
    (ht : site.code.Boundary p → site.code.Boundary target) : site.Clean p (p + 3) := by
  rcases ho with rfl | rfl
  · exact Clean.instruction h fun hb =>
      .of_legal (ht hb) (fun next hn => List.mem_singleton.mp hn ▸ hlt) nofun
  · refine Clean.instruction h fun hb => .of_legal (ht hb) (fun next hn => ?_) nofun
    rcases List.mem_cons.mp hn with rfl | hn
    · exact Nat.lt_add_of_pos_right (Instruction.size_pos _)
    · exact List.mem_singleton.mp hn ▸ hlt

theorem Gives.refl (p : Nat) : site.Gives 0 p p := ⟨.refl p, fun _ h => h⟩

theorem Gives.trans {a b : Nat} (h : site.Gives a p m) (k : site.Gives b m q) :
    site.Gives (a + b) p q where
  clean := h.clean.trans k.clean
  balanced := fun depth hb =>
    h.balanced depth (k.balanced (depth + a) (by rw [Nat.add_assoc]; exact hb))

/-- An instruction behind a stretch that gives what it takes. -/
theorem Gives.andThen {values : Nat} {instruction : Instruction} (h : site.Gives values p m)
    (hat : site.code.Holds m instruction) (ht : instruction.takes = values)
    (hs : instruction.successors m = [m + instruction.size])
    (hl : site.Permits instruction)
    (hne : instruction.opcode ≠ .closure) :
    site.Gives instruction.gives p (m + instruction.size) where
  clean := h.clean.trans
    (.instruction hat fun _ => .of_legal hl (Instruction.forward_of_next hs) hne)
  balanced := fun depth hb => h.balanced depth (.before values hat hs ht hb)

/-- An instruction that takes nothing. -/
theorem Gives.instruction {instruction : Instruction} (hat : site.code.Holds p instruction)
    (ht : instruction.takes = 0) (hs : instruction.successors p = [p + instruction.size])
    (hl : site.Permits instruction)
    (hne : instruction.opcode ≠ .closure) :
    site.Gives instruction.gives p (p + instruction.size) :=
  (Gives.refl p).andThen hat ht hs hl hne

end Site

open Site

variable {site : Site} {t t' : SymbolTable} {p q : Nat}

theorem Loads.gives {symbol : Symbol} (h : Loads site symbol p q) : site.Gives 1 p q := by
  cases h with
  | global _ hi hat => exact .instruction hat rfl rfl hi nofun
  | slot _ hi hat => exact .instruction hat rfl rfl hi nofun
  | builtin _ hof _ hat => exact .instruction hat rfl rfl ⟨_, hof⟩ nofun
  | captured _ hf _ hat =>
    exact .instruction hat rfl rfl (List.getElem?_eq_some_iff.mp hf).1 nofun
  | self _ hf hat => exact .instruction hat rfl rfl hf nofun

theorem LoadsAll.gives {symbols : List Symbol} (h : LoadsAll site p symbols q) :
    site.Gives symbols.length p q := by
  induction h with
  | nil => exact .refl _
  | cons hone _ ih =>
    rw [List.length_cons, Nat.add_comm]
    exact hone.gives.trans ih

/-- The code of an operator takes its operands and gives its result. -/
theorem Site.Gives.binary {op : BinaryOp} {m : Nat} (h : site.Gives 2 p m)
    (hat : site.code.Holds m ⟨Compile.opcodeOfBinary op, []⟩) : site.Gives 1 p (m + 1) := by
  cases op <;> exact h.andThen hat rfl rfl trivial nofun

theorem Site.Gives.unary {op : UnaryOp} {m : Nat} (h : site.Gives 1 p m)
    (hat : site.code.Holds m ⟨Compile.opcodeOfUnary op, []⟩) : site.Gives 1 p (m + 1) := by
  cases op <;> exact h.andThen hat rfl rfl trivial nofun

/-- A stretch that is not run through: it returns before its end. -/
structure Site.Returns (site : Site) (p q : Nat) : Prop where
  clean : site.Clean p q
  balanced : ∀ {limit : Nat} {ends : Nat → Prop} (depth : Nat), q ≤ limit →
    site.code.Balanced limit ends p depth

theorem Site.Gives.returns {values m : Nat} {instruction : Instruction}
    (h : site.Gives values p m) (hat : site.code.Holds m instruction)
    (ht : instruction.takes = values) (hs : instruction.successors m = [])
    (hl : site.Permits instruction)
    (hne : instruction.opcode ≠ .closure) : site.Returns p (m + instruction.size) where
  clean := h.clean.trans (.instruction hat fun _ => .of_legal hl (fun next hn => (by
    rw [hs] at hn
    cases hn)) hne)
  balanced := fun depth hle => h.balanced depth (by
    have hpos := instruction.size_pos
    refine .step (by omega) hat (by omega) fun next hnext => ?_
    rw [hs] at hnext
    cases hnext)

theorem Site.Gives.andReturns {m : Nat} (h : site.Gives 0 p m) (k : site.Returns m q) :
    site.Returns p q :=
  ⟨h.clean.trans k.clean, fun depth hle => h.balanced depth (k.balanced depth hle)⟩

/-- Behind a return any number of values can be assumed. -/
theorem Site.Returns.gives (h : site.Returns p q) (values : Nat) : site.Gives values p q :=
  ⟨h.clean, fun depth hb => h.balanced depth hb.le_limit⟩

/-- A body that is clean and returns is a verified function. -/
theorem Site.Returns.verified (h : site.Returns 0 site.code.size)
    (hf : site.inFunction = true) (name : Option String)
    (numParameters : Nat) :
    Verified site.pool ⟨name, site.code, site.locals, numParameters⟩ site.captures.length := by
  have hall : ∀ offset instruction, site.code.Boundary offset →
      site.code.Holds offset instruction → site.Allows offset instruction :=
    fun offset instruction hb hat =>
      h.clean.allows .first offset instruction (Nat.zero_le _) hat.lt_size hb hat
  exact .intro (h.balanced 0 (Nat.le_refl _)) (h.clean.boundary .first)
    (fun offset instruction hb hat => hf ▸ (hall offset instruction hb hat).legal)
    (fun offset instruction id inner hb hat ho hp =>
      (hall offset instruction hb hat).verified id inner ho hp)
    fun offset instruction hb hat => (hall offset instruction hb hat).forward

/-- A closure of a verified function takes the captured values and gives itself. -/
theorem Site.Gives.closure {m index count id : Nat} {body : CompiledFunction}
    (h : site.Gives count p m) (hat : site.code.Holds m ⟨.closure, [index, count]⟩)
    (hp : site.pool[index]? = some (.compiled id body)) (hv : Verified site.pool body count) :
    site.Gives 1 p (m + 4) where
  clean := by
    refine h.clean.trans (.instruction hat fun _ => ⟨⟨id, body, hp⟩,
      Instruction.forward_of_next rfl, fun id' inner _ hp' => ?_⟩)
    rw [show (Instruction.operand ⟨.closure, [index, count]⟩ 0) = index from rfl, hp] at hp'
    cases hp'
    exact hv
  balanced := fun depth hb => h.balanced depth (.before count hat rfl rfl hb)

/-! ### Constructs with jumps -/

section jumps
variable {m : Nat}

theorem Site.Gives.and (hl : site.Gives 1 p m)
    (hat₁ : site.code.Holds m ⟨.jumpNotTruthy, [q + 7]⟩) (hr : site.Gives 1 (m + 3) q)
    (hat₂ : site.code.Holds q ⟨.jumpNotTruthy, [q + 7]⟩)
    (hat₃ : site.code.Holds (q + 3) ⟨.pushTrue, []⟩)
    (hat₄ : site.code.Holds (q + 4) ⟨.jump, [q + 8]⟩)
    (hat₅ : site.code.Holds (q + 7) ⟨.pushFalse, []⟩) : site.Gives 1 p (q + 8) := by
  have htrue : site.Gives 1 (q + 3) (q + 4) := .instruction hat₃ rfl rfl trivial nofun
  have hfalse : site.Gives 1 (q + 7) (q + 8) := .instruction hat₅ rfl rfl trivial nofun
  -- all boundaries follow from the first one, those that the jumps go to included
  have hend : site.code.Boundary (q + 3) → site.code.Boundary (q + 7) := fun hb =>
    .next (htrue.clean.boundary hb) hat₄
  have hsecond : site.code.Boundary (m + 3) → site.code.Boundary (q + 7) := fun hb =>
    hend (.next (hr.clean.boundary hb) hat₂)
  have hle := hr.clean.le
  refine ⟨hl.clean.trans (.trans
    (.jump hat₁ (.inr rfl) (by omega) fun hb => hsecond (.next hb hat₁))
    (.trans hr.clean (.trans (.jump hat₂ (.inr rfl) (by omega) fun hb => hend (.next hb hat₂))
      (.trans htrue.clean (.trans (.jump hat₄ (.inl rfl) (by omega) fun hb =>
        hfalse.clean.boundary (.next hb hat₄)) hfalse.clean))))), fun depth hb => ?_⟩
  have hother := hfalse.balanced depth hb
  exact hl.balanced depth (.fork hat₁ (hr.balanced depth (.fork hat₂
    (htrue.balanced depth (.jump hat₄ (by omega) hb)) hother)) hother)

theorem Site.Gives.or (hl : site.Gives 1 p m)
    (hat₁ : site.code.Holds m ⟨.jumpNotTruthy, [m + 7]⟩)
    (hat₂ : site.code.Holds (m + 3) ⟨.pushTrue, []⟩)
    (hat₃ : site.code.Holds (m + 4) ⟨.jump, [q + 8]⟩) (hr : site.Gives 1 (m + 7) q)
    (hat₄ : site.code.Holds q ⟨.jumpNotTruthy, [q + 7]⟩)
    (hat₅ : site.code.Holds (q + 3) ⟨.pushTrue, []⟩)
    (hat₆ : site.code.Holds (q + 4) ⟨.jump, [q + 8]⟩)
    (hat₇ : site.code.Holds (q + 7) ⟨.pushFalse, []⟩) : site.Gives 1 p (q + 8) := by
  have htrue : site.Gives 1 (m + 3) (m + 4) := .instruction hat₂ rfl rfl trivial nofun
  have htrue' : site.Gives 1 (q + 3) (q + 4) := .instruction hat₅ rfl rfl trivial nofun
  have hfalse : site.Gives 1 (q + 7) (q + 8) := .instruction hat₇ rfl rfl trivial nofun
  have hright : site.code.Boundary (m + 3) → site.code.Boundary (m + 7) := fun hb =>
    .next (htrue.clean.boundary hb) hat₃
  have hend : site.code.Boundary (q + 3) → site.code.Boundary (q + 7) := fun hb =>
    .next (htrue'.clean.boundary hb) hat₆
  have hout : site.code.Boundary (m + 7) → site.code.Boundary (q + 8) := fun hb =>
    hfalse.clean.boundary (hend (.next (hr.clean.boundary hb) hat₄))
  have hle := hr.clean.le
  refine ⟨hl.clean.trans (.trans
    (.jump hat₁ (.inr rfl) (by omega) fun hb => hright (.next hb hat₁))
    (.trans htrue.clean (.trans (.jump hat₃ (.inl rfl) (by omega) fun hb => hout (.next hb hat₃))
      (.trans hr.clean (.trans (.jump hat₄ (.inr rfl) (by omega) fun hb => hend (.next hb hat₄))
        (.trans htrue'.clean (.trans (.jump hat₆ (.inl rfl) (by omega) fun hb =>
          hfalse.clean.boundary (.next hb hat₆)) hfalse.clean))))))), fun depth hb => ?_⟩
  exact hl.balanced depth (.fork hat₁
    (htrue.balanced depth (.jump hat₃ (by omega) hb))
    (hr.balanced depth (.fork hat₄ (htrue'.balanced depth (.jump hat₆ (by omega) hb))
      (hfalse.balanced depth hb))))

/-- Two ways that give one value each. -/
theorem Site.Gives.choice {n : Nat} (hc : site.Gives 1 p m)
    (hat₁ : site.code.Holds m ⟨.jumpNotTruthy, [n + 3]⟩) (ha : site.Gives 1 (m + 3) n)
    (hat₂ : site.code.Holds n ⟨.jump, [q]⟩) (hb : site.Gives 1 (n + 3) q) :
    site.Gives 1 p q := by
  have hother : site.code.Boundary (m + 3) → site.code.Boundary (n + 3) := fun h =>
    .next (ha.clean.boundary h) hat₂
  have hle := hb.clean.le
  have hle' := ha.clean.le
  refine ⟨hc.clean.trans (.trans
    (.jump hat₁ (.inr rfl) (by omega) fun h => hother (.next h hat₁))
    (.trans ha.clean (.trans (.jump hat₂ (.inl rfl) (by omega) fun h =>
      hb.clean.boundary (.next h hat₂)) hb.clean))), fun depth h => ?_⟩
  exact hc.balanced depth (.fork hat₁ (ha.balanced depth (.jump hat₂ (by omega) h))
    (hb.balanced depth h))

end jumps

/-! ### The layout rules -/

mutual

theorem expr_gives {site : Site} {t t' : SymbolTable} {p q : Nat} (tree : Expr)
    (h : ExprAt site t p tree t' q) : site.Gives 1 p q := by
  match tree with
  | .integer value span =>
    cases h with
    | integer hi hp hat => exact .instruction hat rfl rfl ⟨_, hp, .inl rfl⟩ nofun
  | .string text span =>
    cases h with
    | string hi hp hat => exact .instruction hat rfl rfl ⟨_, hp, .inr rfl⟩ nofun
  | .boolean value span =>
    cases h with
    | boolean hat => cases value <;> exact .instruction hat rfl rfl trivial nofun
  | .ident name span =>
    cases h with
    | ident _ hload => exact hload.gives
  | .unary op operand span =>
    cases h with
    | unary ho hat => exact (expr_gives operand ho).unary hat
  | .binary op left right span =>
    cases h with
    | binary hl hr hat => exact ((expr_gives left hl).trans (expr_gives right hr)).binary hat
  | .logical .and left right span =>
    cases h with
    | and hl hat₁ hr hat₂ hat₃ hat₄ hat₅ =>
      exact (expr_gives left hl).and hat₁ (expr_gives right hr) hat₂ hat₃ hat₄ hat₅
  | .logical .or left right span =>
    cases h with
    | or hl hat₁ hat₂ hat₃ hr hat₄ hat₅ hat₆ hat₇ =>
      exact (expr_gives left hl).or hat₁ hat₂ hat₃ (expr_gives right hr) hat₄ hat₅ hat₆ hat₇
  | .bump op operand span =>
    cases h with
    | bump ho hi hp hat hat' =>
      have hone : site.Gives 1 _ _ := .instruction hat rfl rfl ⟨_, hp, .inl rfl⟩ nofun
      exact ((expr_gives operand ho).trans hone).binary hat'
  | .ifThen condition (.mk statements _) span =>
    cases h with
    | ifThen hc hat₁ ht hat₂ hat₃ =>
      exact (expr_gives condition hc).choice hat₁ (tail_gives statements ht) hat₂
        (.instruction hat₃ rfl rfl trivial nofun)
  | .ifElse condition (.mk first _) (.mk second _) span =>
    cases h with
    | ifElse hc hat₁ hf hat₂ hs =>
      exact (expr_gives condition hc).choice hat₁ (tail_gives first hf) hat₂
        (tail_gives second hs)
  | .function name parameters (.mk body _) span =>
    cases h with
    | function _ hbody hf hpool hlocals _ _ _ _ hloads _ hp hat =>
      have hverified := (tail_returns body hbody).verified hf name parameters.length
      rw [hpool] at hverified
      exact hloads.gives.closure hat hp hverified
  | .array elements span =>
    cases h with
    | array _ hels hat => exact (exprs_gives elements hels).andThen hat rfl rfl trivial nofun
  | .hash pairs span =>
    cases h with
    | hash _ hps hat => exact (entries_gives pairs hps).andThen hat rfl rfl trivial nofun
  | .call callee arguments span =>
    cases h with
    | call _ hcallee hargs hat =>
      exact ((expr_gives callee hcallee).trans (exprs_gives arguments hargs)).andThen hat
        (Nat.add_comm _ _) rfl trivial nofun
  | .index collection key span =>
    cases h with
    | index hc hk hat =>
      exact ((expr_gives collection hc).trans (expr_gives key hk)).andThen hat rfl rfl trivial nofun

theorem exprs_gives {site : Site} {t t' : SymbolTable} {p q : Nat} (items : List Expr)
    (h : ExprsAt site t p items t' q) : site.Gives items.length p q := by
  match items with
  | [] =>
    cases h with
    | nil => exact .refl _
  | item :: rest =>
    cases h with
    | cons hone hall =>
      rw [List.length_cons, Nat.add_comm]
      exact (expr_gives item hone).trans (exprs_gives rest hall)

theorem entries_gives {site : Site} {t t' : SymbolTable} {p q : Nat} (pairs : List (Expr × Expr))
    (h : EntriesAt site t p pairs t' q) : site.Gives (pairs.length * 2) p q := by
  match pairs with
  | [] =>
    cases h with
    | nil => exact .refl _
  | (key, value) :: rest =>
    cases h with
    | cons hk hv hall =>
      rw [List.length_cons, Nat.succ_mul, Nat.add_comm]
      exact ((expr_gives key hk).trans (expr_gives value hv)).trans (entries_gives rest hall)

theorem stmt_gives {site : Site} {t t' : SymbolTable} {p q : Nat} (statement : Stmt)
    (h : StmtAt site t p statement t' q) : site.Gives 0 p q := by
  match statement with
  | .bind name value span =>
    cases h with
    | bindGlobal hv _ _ hi hat => exact (expr_gives value hv).andThen hat rfl rfl hi nofun
    | bindLocal hv _ _ hi hat => exact (expr_gives value hv).andThen hat rfl rfl hi nofun
  | .ret value span =>
    cases h with
    | ret hv hat => exact ((expr_gives value hv).returns hat rfl rfl trivial nofun).gives 0
  | .retNull span =>
    cases h with
    | retNull hat => exact ((Gives.refl _).returns hat rfl rfl trivial nofun).gives 0
  | .expr value span =>
    cases h with
    | expr hv hat => exact (expr_gives value hv).andThen hat rfl rfl trivial nofun

theorem tail_gives {site : Site} {t t' : SymbolTable} {p q : Nat} (statements : List Stmt)
    (h : TailAt .leaves site t p statements t' q) : site.Gives 1 p q := by
  match statements with
  | [] =>
    cases h with
    | nil hat => exact .instruction hat rfl rfl trivial nofun
  | statement :: next :: rest =>
    cases h with
    | cons hs ht => exact (stmt_gives statement hs).trans (tail_gives (next :: rest) ht)
  | [.bind name value span] =>
    cases h with
    | bind hs hat => exact (stmt_gives _ hs).andThen hat rfl rfl trivial nofun
  | [.ret value span] =>
    cases h with
    | ret hs =>
      cases hs with
      | ret hv hat => exact ((expr_gives value hv).returns hat rfl rfl trivial nofun).gives 1
  | [.retNull span] =>
    cases h with
    | retNull hs =>
      cases hs with
      | retNull hat => exact ((Gives.refl _).returns hat rfl rfl trivial nofun).gives 1
  | [.expr value span] =>
    cases h with
    | value hv => exact expr_gives value hv

theorem tail_returns {site : Site} {t t' : SymbolTable} {p q : Nat} (statements : List Stmt)
    (h : TailAt .returns site t p statements t' q) : site.Returns p q := by
  match statements with
  | [] =>
    cases h with
    | nil hat => exact (Gives.refl _).returns hat rfl rfl trivial nofun
  | statement :: next :: rest =>
    cases h with
    | cons hs ht => exact (stmt_gives statement hs).andReturns (tail_returns (next :: rest) ht)
  | [.bind name value span] =>
    cases h with
    | bind hs hat => exact (stmt_gives _ hs).returns hat rfl rfl trivial nofun
  | [.ret value span] =>
    cases h with
    | ret hs =>
      cases hs with
      | ret hv hat => exact (expr_gives value hv).returns hat rfl rfl trivial nofun
  | [.retNull span] =>
    cases h with
    | retNull hs =>
      cases hs with
      | retNull hat => exact (Gives.refl _).returns hat rfl rfl trivial nofun
  | [.expr value span] =>
    cases h with
    | result hv hat => exact (expr_gives value hv).returns hat rfl rfl trivial nofun

end

theorem StmtsAt.gives {statements : List Stmt} (h : StmtsAt site t p statements t' q) :
    site.Gives 0 p q := by
  induction h with
  | nil => exact .refl _
  | cons hs _ ih => exact (stmt_gives _ hs).trans ih

end Simian
