import Luaxx.Code.Compiled

/-!
# Constants keep their meaning

An arithmetic expression is compiled by induction: the left operand stays where it is read from
while the right one is compiled, so that the operation finds both.
-/

namespace Luaxx.Code

open Result

variable {ν : Type} [LuaNumber ν] {S : List ν} {F n : Nat} {fs fs' : FuncState ν}

/-- What reading an expression means after its code has been generated from `fs`. -/
structure Generated (S : List ν) (fs : FuncState ν) (a : Expr ν n) (e : Expdesc ν)
    (fs' : FuncState ν) : Prop where
  step : Step S fs fs'
  placed : Placed fs.freereg fs' e
  numeral : e.numeral? = a.numeral?
  reads : ∀ env K r0, fs'.k <+: K → Clean fs r0 →
    Agree (Same fs.freereg) (reading env K r0 fs.freereg fs' e)
      (out env K r0 fs >>= fun r => a.eval env r >>= fun v => .ok (r, v))

theorem Generated.keeps {a : Expr ν n} {e e' : Expdesc ν} {fs1 fs2 : FuncState ν}
    (h : Generated S fs a e fs1) (h' : Keeps S fs.freereg fs1 e fs2 e')
    (hnum : e'.numeral? = e.numeral?) : Generated S fs a e' fs2 where
  step := h.step.trans h'.step
  placed := h'.placed
  numeral := hnum.trans h.numeral
  reads env K r0 hK hclean :=
    (h'.reads env K r0 hK fun i hi => hclean i (h.step.nactvar ▸ hi)).trans
      (h.reads env K r0 (h'.step.k.trans hK) hclean) fun _ _ _ => Same.trans

/-! ## Operands -/

/-- Read without any code: a numeral, or an operand that has its `RK` argument. -/
def Stays (e : Expdesc ν) : Prop := e.isnumeral = true ∨ ∃ o, Operand o e.k

theorem reading_of_stays {e : Expdesc ν} (h : Stays e) (env : Env ν) (K : List (TValue ν))
    (r0 : Regs ν) (F : Nat) (fs : FuncState ν) :
    reading env K r0 F fs e = out env K r0 fs >>= fun r => .ok (r, settled K r e.k) := by
  obtain ⟨k, t, f⟩ := e
  rcases h with h | ⟨o, h | ⟨i, -, h, -⟩⟩
  · cases k <;> first | rfl | (simp [Expdesc.isnumeral, Expdesc.numeral?] at h)
  · obtain rfl : k = .VNONRELOC o := h
    rfl
  · obtain rfl : k = .VK i := h
    rfl

omit [LuaNumber ν] in
/-- What stays is not changed by what is put in the registers above it. -/
theorem settled_congr {e : Expdesc ν} {K : List (TValue ν)} {r r' : Regs ν}
    (hp : Placed F fs e) (h : ∀ i < F + temps fs e.k, r i = r' i) :
    settled K r e.k = settled K r' e.k := by
  have fits := hp.fits
  have hn := hp.nactvar
  cases hk : e.k <;> rw [hk] at fits h <;> simp only [settled]
  case VLOCAL info => exact h info (Nat.lt_of_lt_of_le fits (Nat.le_add_right_of_le hn))
  case VNONRELOC info =>
    refine h info ?_
    simp only [temps]
    rcases fits with hlt | rfl
    · omega
    · rw [if_pos hn]
      omega

/-- `o` reads the value of `e`. -/
structure ReadsAt (o : Nat) (e : Expdesc ν) : Prop where
  operand : Operand o e.k
  lt : o < 512
  reg : ∀ r, e.k = .VNONRELOC r → r < 256
  RK_eq : ∀ K r, RK K r o = settled K r e.k

omit [LuaNumber ν] in
theorem Operand.readsAt {o : Nat} {e : Expdesc ν} (h : Operand o e.k) (hp : Placed F fs e)
    (hF : F < 256) : ReadsAt o e := by
  have hB : BITRK = 256 := by decide
  have hM : MAXINDEXRK = 255 := by decide
  refine ⟨h, ?_, fun r => hp.reg_lt hF, fun K r => ?_⟩
  · rcases h with h | ⟨i, hi, -, rfl⟩
    · exact (hp.reg_lt hF h).trans (by decide)
    · unfold RKASK
      omega
  · rcases h with h | ⟨i, hi, h, rfl⟩
    · have hlt := hp.reg_lt hF h
      have hK : ISK o = false := by
        unfold ISK
        rw [hB, Nat.div_eq_of_lt hlt]
        rfl
      rw [RK, hK, h]
      rfl
    · have hK : ISK (RKASK i) = true := by
        unfold ISK RKASK
        rw [hB, beq_iff_eq]
        omega
      have hI : INDEXK (RKASK i) = i := by
        unfold INDEXK RKASK
        rw [hB]
        omega
      rw [RK, hK, h, hI]
      rfl

omit [LuaNumber ν] in
theorem Operand.numeral?_eq {o : Nat} {e : Expdesc ν} (h : Operand o e.k) : e.numeral? = none := by
  obtain ⟨k, t, f⟩ := e
  rcases h with hk | ⟨i, -, hk, -⟩
  · obtain rfl : k = .VNONRELOC o := hk
    rfl
  · obtain rfl : k = .VK i := hk
    rfl

omit [LuaNumber ν] in
theorem Operand.dischargevars {o : Nat} {e : Expdesc ν} (h : Operand o e.k) :
    luaK_dischargevars fs e = .ok (e, fs) := by
  unfold luaK_dischargevars
  rcases h with h | ⟨i, -, h, -⟩ <;> rw [h]

/-- An operand already has its `RK` argument. -/
theorem luaK_exp2RK_of_operand {o : Nat} {e : Expdesc ν} (h : Operand o e.k) (ht : e.t = NO_JUMP)
    (hf : e.f = NO_JUMP) : luaK_exp2RK fs e = .ok (o, e, fs) := by
  have hjumps : e.hasjumps = false := by simp [Expdesc.hasjumps, ht, hf]
  rw [luaK_exp2RK, luaK_exp2val, hjumps]
  simp only [Bool.false_eq_true, if_false, h.dischargevars, ok_bind]
  rcases h with hk | ⟨i, hi, hk, rfl⟩
  · simp only [hk, luaK_exp2anyreg, Operand.dischargevars (.inl hk), ok_bind, hjumps]
    rfl
  · simp only [hk, if_pos hi]

/-! ## Two operands -/

section Operands

variable {a b : Expr ν n} {e1 e2 e' : Expdesc ν} {fs2 fs3 : FuncState ν}

/-- The values of both operands, one after the other. -/
def operandValues (env : Env ν) (a b : Expr ν n) (r : Regs ν) :
    Except String (Regs ν × TValue ν × TValue ν) := do
  let v ← a.eval env r
  let w ← b.eval env r
  .ok (r, v, w)

/-- The code so far has the values of both operands, where `k1` and `k2` are read from. -/
def Holding (K : List (TValue ν)) (F : Nat) (k1 k2 : ExpKind ν) (r : Regs ν)
    (p : Regs ν × TValue ν × TValue ν) : Prop :=
  (∀ i < F, r i = p.1 i) ∧ settled K r k1 = p.2.1 ∧ settled K r k2 = p.2.2

/-- The left operand is still there when the right one has been generated. -/
theorem reading_second (hn : n ≤ fs.nactvar) (ga : Generated S fs a e1 fs2) (hs : Stays e1)
    (gb : Generated S fs2 b e2 fs3) (env : Env ν) (K : List (TValue ν)) (r0 : Regs ν)
    (hK : fs3.k <+: K) (hclean : Clean fs r0) :
    Agree (fun (q : Regs ν × TValue ν) (p : Regs ν × TValue ν × TValue ν) =>
        (∀ i < fs.freereg, q.1 i = p.1 i) ∧ settled K q.1 e1.k = p.2.1 ∧ q.2 = p.2.2)
      (reading env K r0 fs2.freereg fs3 e2)
      (out env K r0 fs >>= fun r => operandValues env a b r) := by
  have hclean2 : Clean fs2 r0 := fun i hi => hclean i (ga.step.nactvar ▸ hi)
  have hfirst := ga.reads env K r0 (gb.step.k.trans hK) hclean
  rw [reading_of_stays hs] at hfirst
  have hsecond := gb.reads env K r0 hK hclean2
  have hactvar : fs.nactvar ≤ fs.freereg := ga.step.nactvar ▸ ga.placed.nactvar
  have hle : fs.freereg ≤ fs2.freereg := ga.placed.le_freereg
  -- after the left operand: the registers, and its value where it is read from
  have hleft : Agree (fun (r : Regs ν) (p : Regs ν × TValue ν) =>
      (∀ i < fs.freereg, r i = p.1 i) ∧ settled K r e1.k = p.2)
      (out env K r0 fs2) (out env K r0 fs >>= fun r => a.eval env r >>= fun v => .ok (r, v)) :=
    agree_bind_ok_left.mp hfirst
  refine hsecond.trans (S := fun (q : Regs ν × TValue ν) (p : Regs ν × TValue ν × TValue ν) =>
    (∀ i < fs.freereg, q.1 i = p.1 i) ∧ settled K q.1 e1.k = p.2.1 ∧ q.2 = p.2.2) ?_ ?_
  · have hassoc : (out env K r0 fs >>= fun r => operandValues env a b r) =
        (out env K r0 fs >>= fun r => a.eval env r >>= fun v => .ok (r, v)) >>= fun p =>
          b.eval env p.1 >>= fun w => .ok (p.1, p.2, w) := by
      simp only [operandValues, bind_assoc, ok_bind]
    rw [hassoc]
    refine hleft.bind fun r p hp => ?_
    rw [b.eval_congr env fun i hi => hp.1 i (lt_of_lt_of_le hi (hn.trans hactvar))]
    refine Agree.bind (R := Eq) (.refl (fun _ => rfl) _) fun w _ hw => ?_
    exact ⟨hp.1, hp.2, hw⟩
  · rintro q q' p ⟨hbelow, hval⟩ ⟨hbelow', hleft', hval'⟩
    refine ⟨fun i hi => (hbelow i (lt_of_lt_of_le hi hle)).trans (hbelow' i hi), ?_,
      hval.trans hval'⟩
    rw [← hleft']
    exact settled_congr ga.placed fun i hi => hbelow i (ga.placed.freereg ▸ hi)

omit [LuaNumber ν] in
theorem temps_congr (h : fs'.nactvar = fs.nactvar) (k : ExpKind ν) : temps fs' k = temps fs k := by
  cases k <;> simp [temps, h]

/-- Both operands are held, with what `codearith` does about them. -/
structure Held (S : List ν) (fs : FuncState ν) (a b : Expr ν n) (o1 o2 : Nat)
    (e1 e2 : Expdesc ν) (fs' : FuncState ν) : Prop where
  step : Step S fs fs'
  first : ReadsAt o1 e1
  second : ReadsAt o2 e2
  t : e1.t = NO_JUMP
  f : e1.f = NO_JUMP
  freereg : fs'.freereg = fs.freereg + temps fs e1.k + temps fs e2.k
  holding : ∀ env K r0, fs'.k <+: K → Clean fs r0 →
    Agree (Holding K fs.freereg e1.k e2.k) (out env K r0 fs')
      (out env K r0 fs >>= fun r => operandValues env a b r)

theorem held_of_exp2RK (hS : Separate S) (hn : n ≤ fs.nactvar)
    (ha : ∀ m, a.numeral? = some m → m ∈ S) (hb : ∀ m, b.numeral? = some m → m ∈ S)
    (ga : Generated S fs a e1 fs2) (hs : Stays e1) (gb : Generated S fs2 b e2 fs3)
    {o1 o2 : Nat} {e1' e2' : Expdesc ν} {fs4 fs5 : FuncState ν}
    (h2 : luaK_exp2RK fs3 e2 = .ok (o2, e2', fs4)) (h1 : luaK_exp2RK fs4 e1 = .ok (o1, e1', fs5)) :
    Held S fs a b o1 o2 e1' e2' fs5 := by
  have hF2 : fs2.freereg < 256 := ga.step.ready.freereg_lt
  have hF : fs.freereg < 256 := lt_of_le_of_lt ga.placed.le_freereg hF2
  obtain ⟨keeps2, op2⟩ := luaK_exp2RK_spec gb.step.ready hS
    (fun m hm => hb m (gb.numeral ▸ hm)) gb.placed h2
  have hnact2 := ga.step.nactvar
  have hnact4 : fs4.nactvar = fs.nactvar := ((gb.step.trans keeps2.step).nactvar).trans hnact2
  have hfree4 : fs4.freereg = fs.freereg + temps fs e1.k + temps fs e2'.k := by
    rw [keeps2.placed.freereg, ga.placed.freereg, temps_congr hnact4, temps_congr hnact2]
  -- what is held before the first operand is looked at
  have hold4 : ∀ env K r0, fs4.k <+: K → Clean fs r0 →
      Agree (Holding K fs.freereg e1.k e2'.k) (out env K r0 fs4)
        (out env K r0 fs >>= fun r => operandValues env a b r) := by
    intro env K r0 hK hclean
    have hclean2 : Clean fs2 r0 := fun i hi => hclean i (hnact2 ▸ hi)
    have hclean3 : Clean fs3 r0 := fun i hi => hclean2 i (gb.step.nactvar ▸ hi)
    have hread := keeps2.reads env K r0 hK hclean3
    rw [reading_of_stays (.inr ⟨o2, op2⟩)] at hread
    refine (agree_bind_ok_left.mp hread).trans
      (reading_second hn ga hs gb env K r0 (keeps2.step.k.trans hK) hclean) ?_
    rintro r q p ⟨hbelow, hval⟩ ⟨hbelow', hleft, hval'⟩
    refine ⟨fun i hi => (hbelow i (lt_of_lt_of_le hi ga.placed.le_freereg)).trans (hbelow' i hi),
      ?_, hval.trans hval'⟩
    rw [← hleft]
    exact settled_congr ga.placed fun i hi => hbelow i (ga.placed.freereg ▸ hi)
  have step4 := (ga.step.trans gb.step).trans keeps2.step
  rcases hs with hnum | ⟨o, op1⟩
  · -- a numeral: it gets a constant, or a register above the second operand
    have hk1 : temps fs e1.k = 0 := by
      obtain ⟨k, t, f⟩ := e1
      cases k <;> first | rfl | simp [Expdesc.isnumeral, Expdesc.numeral?] at hnum
    have hp4 : Placed fs4.freereg fs4 e1 := by
      refine ⟨ga.placed.t, ga.placed.f, ?_, step4.ready.nactvar, ?_⟩
      · obtain ⟨k, t, f⟩ := e1
        cases k <;> trivial
      · rw [temps_congr hnact4, hk1, Nat.add_zero]
    have hF4 : fs4.freereg < 256 := step4.ready.freereg_lt
    obtain ⟨keeps1, op1⟩ := luaK_exp2RK_spec step4.ready hS
      (fun m hm => ha m (ga.numeral ▸ hm)) hp4 h1
    refine ⟨step4.trans keeps1.step, op1.readsAt keeps1.placed hF4,
      op2.readsAt keeps2.placed hF2, keeps1.placed.t, keeps1.placed.f, ?_, ?_⟩
    · rw [keeps1.placed.freereg, hfree4, hk1, temps_congr (keeps1.step.nactvar.trans hnact4)]
      omega
    · intro env K r0 hK hclean
      have hclean4 : Clean fs4 r0 := fun i hi => hclean i (hnact4 ▸ hi)
      have hread := keeps1.reads env K r0 hK hclean4
      rw [reading_of_stays (.inr ⟨o1, op1⟩), reading_of_stays (.inl hnum)] at hread
      refine (agree_bind_ok_right.mp (agree_bind_ok_left.mp hread)).trans
        (hold4 env K r0 (keeps1.step.k.trans hK) hclean) ?_
      rintro r q p ⟨hbelow, hval⟩ ⟨hbelow', hleft, hright⟩
      have hle : fs.freereg ≤ fs4.freereg := by omega
      refine ⟨fun i hi => (hbelow i (lt_of_lt_of_le hi hle)).trans (hbelow' i hi),
        hval.trans hleft, ?_⟩
      rw [← hright]
      exact settled_congr keeps2.placed fun i hi => hbelow i (keeps2.placed.freereg ▸ hi)
  · rw [luaK_exp2RK_of_operand op1 ga.placed.t ga.placed.f] at h1
    cases h1
    exact ⟨step4, op1.readsAt ga.placed hF, op2.readsAt keeps2.placed hF2, ga.placed.t,
      ga.placed.f, hfree4, hold4⟩

omit [LuaNumber ν] in
theorem temps_of_numeral? {e : Expdesc ν} {v : ν} (h : e.numeral? = some v) (fs : FuncState ν) :
    temps fs e.k = 0 := by
  obtain ⟨k, t, f⟩ := e
  cases k <;> first | rfl | cases h

omit [LuaNumber ν] in
theorem k_of_numeral? {e : Expdesc ν} {v : ν} (h : e.numeral? = some v) : e.k = .VKNUM v := by
  obtain ⟨k, t, f⟩ := e
  cases k with
  | VKNUM n => exact congrArg ExpKind.VKNUM (Option.some.inj (Option.ite_none_right_eq_some.mp h).2)
  | _ => cases h

omit [LuaNumber ν] in
theorem freeexp_freeexp (h1 : ∀ r, e1.k = .VNONRELOC r → r < 256)
    (h2 : ∀ r, e2.k = .VNONRELOC r → r < 256) :
    freeexp (freeexp fs e1) e2 =
      { fs with freereg := fs.freereg - temps fs e1.k - temps fs e2.k } := by
  rw [freeexp_eq h1, freeexp_eq h2]
  rfl

/-- An operation that is not folded computes its value from what its operands hold. -/
theorem codearith_spec {op : ArithOpr} (hS : Separate S) (hn : n ≤ fs.nactvar)
    (hmem : (Expr.arith op a b).numeral? = none →
      (∀ m, a.numeral? = some m → m ∈ S) ∧ ∀ m, b.numeral? = some m → m ∈ S)
    (ga : Generated S fs a e1 fs2) (hs : Stays e1) (gb : Generated S fs2 b e2 fs3)
    (h : codearith fs3 op.op e1 e2 = .ok (e', fs')) : Generated S fs (.arith op a b) e' fs' := by
  have hnum : constfolding op.op e1 e2 = (Expr.arith op a b).numeral? := by
    rw [constfolding, ga.numeral, gb.numeral]
    rfl
  rw [codearith, hnum] at h
  cases hfold : (Expr.arith op a b).numeral? with
  | some r =>
    rw [hfold] at h
    cases h
    obtain ⟨v1, h1, hrest⟩ := Option.bind_eq_some_iff.mp hfold
    obtain ⟨v2, h2, -⟩ := Option.bind_eq_some_iff.mp hrest
    have hk1 := temps_of_numeral? (ga.numeral.trans h1) fs2
    have hk2 := temps_of_numeral? (gb.numeral.trans h2) fs'
    have hfree : fs'.freereg = fs.freereg := by
      rw [gb.placed.freereg, hk2, ga.placed.freereg, hk1]
      rfl
    have hstep := ga.step.trans gb.step
    refine ⟨hstep, ⟨ga.placed.t, ga.placed.f, trivial, ?_, hfree⟩,
      (if_pos ⟨ga.placed.t, ga.placed.f⟩).trans hfold.symm, fun env K r0 hK hclean => ?_⟩
    · exact hstep.nactvar.trans_le (ga.step.nactvar ▸ ga.placed.nactvar)
    · have hread := reading_second hn ga hs gb env K r0 hK hclean
      have hsecond : Stays e2 := .inl (by rw [Expdesc.isnumeral, gb.numeral, h2]; rfl)
      rw [reading_of_stays hsecond] at hread
      simp only [operandValues, Expr.eval_of_numeral? env _ h1, Expr.eval_of_numeral? env _ h2,
        ok_bind] at hread
      have hout := agree_bind_ok_right.mp (agree_bind_ok_left.mp hread)
      simp only [Expr.eval_of_numeral? env _ hfold, ok_bind]
      refine agree_bind_ok_left.mpr (agree_bind_ok_right.mpr ?_)
      exact hout.imp fun q p hqp => ⟨hqp.1, rfl⟩
  | none =>
    rw [hfold] at h
    obtain ⟨ha, hb⟩ := hmem hfold
    have hop : op.op ≠ .UNM ∧ op.op ≠ .LEN := by cases op <;> decide
    simp only [if_pos hop] at h
    obtain ⟨⟨o2, e2', fs4⟩, h2, h⟩ := bind_ok.mp h
    obtain ⟨⟨o1, e1', fs5⟩, h1, h⟩ := bind_ok.mp h
    obtain ⟨⟨pc, fs6⟩, h6, h⟩ := bind_ok.mp h
    cases h
    have held := held_of_exp2RK hS hn ha hb ga hs gb h2 h1
    have hactvar : fs.nactvar ≤ fs.freereg := ga.step.nactvar ▸ ga.placed.nactvar
    have hF : fs.freereg < 256 := lt_of_le_of_lt ga.placed.le_freereg ga.step.ready.freereg_lt
    have hnact5 := held.step.nactvar
    have hfrees : (if o1 > o2 then freeexp (freeexp fs5 e1') e2' else freeexp (freeexp fs5 e2') e1')
        = { fs5 with freereg := fs.freereg } := by
      have hfree := held.freereg
      rw [← temps_congr hnact5, ← temps_congr hnact5] at hfree
      split_ifs
      · rw [freeexp_freeexp held.first.reg held.second.reg, hfree]
        congr 1
        omega
      · rw [freeexp_freeexp held.second.reg held.first.reg, hfree]
        congr 1
        omega
    rw [hfrees] at h6
    have hne : GET_OPCODE (CREATE_ABC op.op 0 o1 o2) ≠ some .LOADNIL := by
      rw [GET_OPCODE_CREATE_ABC (by decide) held.first.lt held.second.lt]
      cases op <;> decide
    have hle : fs.freereg ≤ fs5.freereg := by
      rw [held.freereg]
      omega
    obtain ⟨step6, rfl, rfl, -⟩ := luaK_code_spec
      (held.step.ready.free (hnact5.trans_le hactvar) hle) (absurd · hne) h6
    refine ⟨⟨step6.ready, hnact5, held.step.k⟩,
      ⟨held.t, held.f, ⟨by simp, ?_⟩, hnact5.trans_le hactvar, rfl⟩, hfold.symm,
      fun env K r0 hK hclean => ?_⟩
    · simpa [FuncState.codeAt] using hne
    · have hhold := held.holding env K r0 hK hclean
      rw [reading_relocable]
      have hassoc : (out env K r0 fs >>= fun r => (Expr.arith op a b).eval env r >>= fun v =>
            .ok (r, v)) =
          (out env K r0 fs >>= fun r => operandValues env a b r) >>= fun p =>
            arith_op env op.tm p.2.1 p.2.2 >>= fun v => .ok (p.1, v) := by
        simp only [operandValues, Expr.eval, bind_assoc, ok_bind]
      rw [hassoc]
      refine hhold.bind ?_
      rintro r p ⟨hbelow, hv, hw⟩
      rw [execute_arith op hF held.first.lt held.second.lt, held.first.RK_eq, held.second.RK_eq,
        hv, hw, execArith, bind_assoc]
      refine Agree.bind (R := Eq) (.refl (fun _ => rfl) _) fun v _ hv => ?_
      subst hv
      exact ⟨fun i hi => (setReg_of_ne (Nat.ne_of_lt hi)).trans (hbelow i hi), setReg_self _ _ _⟩

theorem luaK_infix_spec {op : ArithOpr} (hS : Separate S) (ga : Generated S fs a e1 fs2)
    (h : luaK_infix fs2 op.opr e1 = .ok (e', fs')) : Generated S fs a e' fs' ∧ Stays e' := by
  have hinfix : luaK_infix fs2 op.opr e1 =
      if !e1.isnumeral then luaK_exp2RK fs2 e1 >>= fun p => .ok (p.2.1, p.2.2)
      else .ok (e1, fs2) := by
    cases op <;> rfl
  rw [ hinfix] at h
  split_ifs at h with hnum
  · obtain ⟨⟨o, e2, fs3⟩, h1, h⟩ := bind_ok.mp h
    obtain ⟨rfl, rfl⟩ : e' = e2 ∧ fs' = fs3 := by
      cases h
      exact ⟨rfl, rfl⟩
    have hnone : e1.numeral? = none := by simpa [Expdesc.isnumeral] using hnum
    obtain ⟨keeps, op⟩ := luaK_exp2RK_spec ga.step.ready hS (by simp [hnone]) ga.placed h1
    refine ⟨ga.keeps keeps ?_, .inr ⟨o, op⟩⟩
    rw [hnone, op.numeral?_eq]
  · cases h
    exact ⟨ga, .inl (by simpa using hnum)⟩

end Operands

/-! ## Expressions -/

/-- The numerals that are entered on the way are in `S`. -/
def Admits (S : List ν) (a : Expr ν n) : Prop := a.numeral? = none → ∀ m ∈ a.numerals, m ∈ S

theorem Expr.mem_numerals {a : Expr ν n} {m : ν} (h : a.numeral? = some m) : m ∈ a.numerals := by
  unfold Expr.numerals
  rw [h]
  exact List.mem_singleton_self m

theorem Expr.numerals_arith {op : ArithOpr} {a b : Expr ν n}
    (h : (Expr.arith op a b).numeral? = none) :
    (Expr.arith op a b).numerals = a.numerals ++ b.numerals := by
  rw [Expr.numerals, h]

theorem Admits.paren {a : Expr ν n} (h : Admits S (.paren a)) : Admits S a := by
  intro hnone m hm
  refine h hnone m ?_
  rw [Expr.numerals, show (Expr.paren a).numeral? = none from hnone]
  exact hm

theorem Admits.minus {a : Expr ν n} (h : Admits S (.minus a)) : Admits S a := by
  intro hnone m hm
  have hnone' : (Expr.minus a).numeral? = none := by
    rw [Expr.numeral?, hnone]
    rfl
  refine h hnone' m ?_
  rw [Expr.numerals, hnone']
  exact hm

/-- An operand that is a numeral is entered if the operation is not folded. -/
theorem Admits.arith {op : ArithOpr} {a b : Expr ν n} (h : Admits S (.arith op a b)) :
    Admits S a ∧ Admits S b ∧ ((Expr.arith op a b).numeral? = none →
      (∀ m, a.numeral? = some m → m ∈ S) ∧ ∀ m, b.numeral? = some m → m ∈ S) := by
  have hmem : (Expr.arith op a b).numeral? = none → ∀ m ∈ a.numerals ++ b.numerals, m ∈ S := by
    intro hnone m hm
    exact h hnone m (Expr.numerals_arith hnone ▸ hm)
  refine ⟨fun hnone m hm => ?_, fun hnone m hm => ?_, fun hnone => ⟨fun m hm => ?_, fun m hm => ?_⟩⟩
  · exact hmem (by rw [Expr.numeral?, hnone]; rfl) m (List.mem_append_left _ hm)
  · refine hmem ?_ m (List.mem_append_right _ hm)
    rw [Expr.numeral?, hnone]
    cases a.numeral? <;> rfl
  · exact hmem hnone m (List.mem_append_left _ (Expr.mem_numerals hm))
  · exact hmem hnone m (List.mem_append_right _ (Expr.mem_numerals hm))

/-- A string constant is entered, whatever kind of expression it is for. -/
theorem generated_string {a : Expr ν n} {s i : Nat} {k : ExpKind ν} (hr : Ready S fs)
    (hS : Separate S) (h : luaK_stringK fs s = .ok (i, fs')) (hfits : ∀ F fs, i < fs.k.length →
      Fits F fs k) (htemps : temps fs' k = 0) (hnum : (init_exp k).numeral? = a.numeral?)
    (hread : ∀ env K r0 F, K.getD i .nil = .string s → reading env K r0 F fs' (init_exp k) =
      out env K r0 fs' >>= fun r => a.eval env r >>= fun v => .ok (r, v)) :
    Generated S fs a (init_exp k) fs' := by
  obtain ⟨step, hframe, hlt, -, hK⟩ := addConstant_step (r := .string s) hr hS nofun h
  have hfree : fs'.freereg = fs.freereg := by rw [hframe]
  have hcode : fs'.code = fs.code := by rw [hframe]
  refine ⟨step, ⟨rfl, rfl, hfits _ _ hlt, step.nactvar.trans_le hr.nactvar, ?_⟩, hnum,
    fun env K r0 hK' _ => ?_⟩
  · exact hfree.trans (by rw [init_exp, htemps]; rfl)
  · rw [hread env K r0 _ (hK K hK'), out, hcode]
    exact .refl Same.refl _

/-- The negation of a numeral is folded; everything else is put in a register for it. -/
theorem luaK_prefix_spec {a : Expr ν n} {e e' : Expdesc ν} {fs1 : FuncState ν} (hS : Separate S)
    (ga : Generated S fs a e fs1) (h : luaK_prefix fs1 .MINUS e = .ok (e', fs')) :
    Generated S fs (.minus a) e' fs' := by
  have hactvar : fs.nactvar ≤ fs.freereg := ga.step.nactvar ▸ ga.placed.nactvar
  have hF : fs.freereg < 256 := lt_of_le_of_lt ga.placed.le_freereg ga.step.ready.freereg_lt
  have hzero : (init_exp (.VKNUM LuaNumber.zero) : Expdesc ν).numeral? = some LuaNumber.zero := rfl
  cases hnum : a.numeral? with
  | some v =>
    have hfold := foldNumerals_UNM (w := LuaNumber.zero) (Expr.not_nan_of_numeral? hnum)
    have heval : (Expr.minus a).numeral? = some (luai_numunm v) := by
      rw [Expr.numeral?, hnum]
      exact hfold
    have hcf : constfolding .UNM e (init_exp (.VKNUM LuaNumber.zero)) = some (luai_numunm v) := by
      rw [constfolding, ga.numeral, hnum]
      exact hfold
    have hisnum : e.isnumeral = true := by rw [Expdesc.isnumeral, ga.numeral, hnum]; rfl
    have hk := temps_of_numeral? (ga.numeral.trans hnum) fs1
    simp only [ luaK_prefix, hisnum, Bool.not_true, Bool.false_eq_true, if_false, ok_bind] at h
    rw [codearith, hcf] at h
    cases h
    refine ⟨ga.step, ⟨ga.placed.t, ga.placed.f, trivial, ga.placed.nactvar, ?_⟩,
      (if_pos ⟨ga.placed.t, ga.placed.f⟩).trans heval.symm, fun env K r0 hK hclean => ?_⟩
    · rw [ga.placed.freereg, hk]
      rfl
    · have hread := ga.reads env K r0 hK hclean
      have hstays : Stays e := .inl hisnum
      rw [reading_of_stays hstays] at hread
      simp only [Expr.eval_of_numeral? env _ hnum, ok_bind] at hread
      have hout := agree_bind_ok_right.mp (agree_bind_ok_left.mp hread)
      simp only [Expr.eval_of_numeral? env _ heval, ok_bind]
      refine agree_bind_ok_left.mpr (agree_bind_ok_right.mpr ?_)
      exact hout.imp fun q p hqp => ⟨hqp.1, rfl⟩
  | none =>
    have hisnum : e.isnumeral = false := by rw [Expdesc.isnumeral, ga.numeral, hnum]; rfl
    simp only [ luaK_prefix, hisnum, Bool.not_false, if_true, ok_bind] at h
    obtain ⟨⟨o, e1, fs2⟩, h1, h⟩ := bind_ok.mp h
    obtain ⟨keeps, hk⟩ := luaK_exp2anyreg_spec ga.step.ready hS
      (by simp [ga.numeral, hnum]) ga.placed h1
    have op : Operand o e1.k := .inl hk
    have hp := keeps.placed
    have hcf : constfolding .UNM e1 (init_exp (.VKNUM LuaNumber.zero)) = none := by
      rw [constfolding, op.numeral?_eq]
      rfl
    have hreg := hp.reg_lt hF hk
    have h0 : 0 < 256 := by decide
    have h0' : 0 < 512 := by decide
    have hlt : o < 512 := hreg.trans (by decide)
    dsimp only at h
    rw [codearith, hcf] at h
    have hne : ¬ (OpCode.UNM ≠ .UNM ∧ OpCode.UNM ≠ .LEN) := by decide
    simp only [if_neg hne, ok_bind, luaK_exp2RK_of_operand op hp.t hp.f] at h
    obtain ⟨⟨pc, fs3⟩, h3, h⟩ := bind_ok.mp h
    cases h
    have hfrees : (if o > 0 then freeexp (freeexp fs2 e1) (init_exp (.VKNUM LuaNumber.zero))
        else freeexp (freeexp fs2 (init_exp (.VKNUM LuaNumber.zero))) e1) =
        { fs2 with freereg := fs.freereg } := by
      split_ifs
      · rw [hp.freeexp_eq hF]
        rfl
      · exact hp.freeexp_eq hF
    rw [hfrees] at h3
    have hop := GET_OPCODE_CREATE_ABC (o := .UNM) h0 hlt h0'
    have hne : GET_OPCODE (CREATE_ABC .UNM 0 o 0) ≠ some .LOADNIL := by rw [hop]; decide
    have hn2 : fs2.nactvar = fs.nactvar := keeps.step.nactvar.trans ga.step.nactvar
    obtain ⟨step, rfl, rfl, -⟩ := luaK_code_spec
      (keeps.step.ready.free hp.nactvar hp.le_freereg) (absurd · hne) h3
    refine ⟨⟨step.ready, hn2, ga.step.k.trans keeps.step.k⟩,
      ⟨hp.t, hp.f, ⟨by simp, ?_⟩, hp.nactvar, rfl⟩, ?_, fun env K r0 hK hclean => ?_⟩
    · simpa [FuncState.codeAt] using hne
    · rw [Expr.numeral?, hnum]
      rfl
    · have hclean1 : Clean fs1 r0 := fun i hi => hclean i (ga.step.nactvar ▸ hi)
      have hread := keeps.reads env K r0 hK hclean1
      rw [reading_of_stays (.inr ⟨o, op⟩)] at hread
      have hval := (agree_bind_ok_left.mp hread).trans
        (ga.reads env K r0 (keeps.step.k.trans hK) hclean) fun _ _ _ => Same.trans
      rw [reading_relocable]
      have hassoc : (out env K r0 fs >>= fun r => (Expr.minus a).eval env r >>= fun v =>
            .ok (r, v)) =
          (out env K r0 fs >>= fun r => a.eval env r >>= fun v => .ok (r, v)) >>= fun p =>
            arith_op env .UNM p.2 p.2 >>= fun v => .ok (p.1, v) := by
        simp only [Expr.eval, bind_assoc, ok_bind]
      rw [hassoc]
      refine hval.bind ?_
      rintro r p ⟨hbelow, hv⟩
      have hro : r o = p.2 := by
        rw [← hv, hk]
        rfl
      rw [execute_UNM hF hlt, execArith, bind_assoc, hro]
      refine Agree.bind (R := Eq) (.refl (fun _ => rfl) _) fun v _ hv => ?_
      subst hv
      exact ⟨fun i hi => (setReg_of_ne (Nat.ne_of_lt hi)).trans (hbelow i hi), setReg_self _ _ _⟩

theorem genExpr_spec (hS : Separate S) (a : Expr ν n) (hn : n ≤ fs.nactvar) (hr : Ready S fs)
    (hadm : Admits S a) {e : Expdesc ν} (h : genExpr fs a = .ok (e, fs')) :
    Generated S fs a e fs' := by
  induction a generalizing fs fs' e with
  | nil =>
    cases h
    exact ⟨.refl hr, ⟨rfl, rfl, trivial, hr.nactvar, rfl⟩, rfl, fun _ _ _ _ _ => .refl Same.refl _⟩
  | true =>
    cases h
    exact ⟨.refl hr, ⟨rfl, rfl, trivial, hr.nactvar, rfl⟩, rfl, fun _ _ _ _ _ => .refl Same.refl _⟩
  | false =>
    cases h
    exact ⟨.refl hr, ⟨rfl, rfl, trivial, hr.nactvar, rfl⟩, rfl, fun _ _ _ _ _ => .refl Same.refl _⟩
  | number r hnan =>
    cases h
    exact ⟨.refl hr, ⟨rfl, rfl, trivial, hr.nactvar, rfl⟩, rfl, fun _ _ _ _ _ => .refl Same.refl _⟩
  | localvar r =>
    cases h
    have hlt : (r : Nat) < fs.nactvar := lt_of_lt_of_le r.isLt hn
    exact ⟨.refl hr, ⟨rfl, rfl, hlt, hr.nactvar, rfl⟩, rfl, fun _ _ _ _ _ => .refl Same.refl _⟩
  | string s =>
    obtain ⟨⟨i, fs1⟩, h1, h⟩ := bind_ok.mp h
    cases h
    exact generated_string hr hS h1 (fun _ _ hlt => hlt) rfl rfl
      (fun env K r0 F hK => by
        simp only [reading, init_exp, settled, Expr.eval, hK, ok_bind])
  | global name =>
    obtain ⟨⟨i, fs1⟩, h1, h⟩ := bind_ok.mp h
    cases h
    exact generated_string hr hS h1 (fun _ _ hlt => hlt) rfl rfl
      (fun env K r0 F hK => by simp only [reading, init_exp, Expr.eval, hK])
  | paren a ih =>
    obtain ⟨⟨e1, fs1⟩, h1, h⟩ := bind_ok.mp h
    have ga := ih hn hr hadm.paren h1
    obtain ⟨keeps, -, hnum⟩ := luaK_dischargevars_spec ga.step.ready ga.placed h
    have gp := ga.keeps keeps hnum
    exact ⟨gp.step, gp.placed, gp.numeral, gp.reads⟩
  | arith op a b iha ihb =>
    obtain ⟨⟨e1, fs1⟩, h1, h⟩ := bind_ok.mp h
    obtain ⟨⟨e2, fs2⟩, h2, h⟩ := bind_ok.mp h
    obtain ⟨⟨e3, fs3⟩, h3, h⟩ := bind_ok.mp h
    obtain ⟨hadma, hadmb, hmem⟩ := hadm.arith
    obtain ⟨ga, hs⟩ := luaK_infix_spec hS (iha hn hr hadma h1) h2
    have gb := ihb (ga.step.nactvar ▸ hn) ga.step.ready hadmb h3
    have harith : luaK_posfix fs3 op.opr e2 e3 = codearith fs3 op.op e2 e3 := by cases op <;> rfl
    exact codearith_spec hS hn hmem ga hs gb (harith ▸ h)
  | minus a ih =>
    obtain ⟨⟨e1, fs1⟩, h1, h⟩ := bind_ok.mp h
    have ga := ih hn hr hadm.minus h1
    exact luaK_prefix_spec hS ga h

/-! ## Lists of expressions -/

theorem evalExplist_congr (env : Env ν) {as : List (Expr ν n)} {r : Nat} {regs regs' : Regs ν}
    (hn : n ≤ r) (h : ∀ i < r, regs i = regs' i) :
    Agree (fun s s' : Regs ν => ∀ i < r + as.length, s i = s' i) (evalExplist env regs r as)
      (evalExplist env regs' r as) := by
  induction as generalizing r regs regs' with
  | nil => exact h
  | cons a as ih =>
    rw [evalExplist, evalExplist, a.eval_congr env fun i hi => h i (lt_of_lt_of_le hi hn)]
    refine Agree.bind (R := Eq) (.refl (fun _ => rfl) _) fun v _ hv => ?_
    subst hv
    rw [List.length_cons, Nat.add_comm as.length 1, ← Nat.add_assoc]
    refine ih (Nat.le_succ_of_le hn) fun i hi => ?_
    by_cases heq : i = r
    · rw [heq, setReg_self, setReg_self]
    · rw [setReg_of_ne heq, setReg_of_ne heq]
      exact h i (by omega)

theorem genExplist_spec (hS : Separate S) {as : List (Expr ν n)} (hn : n ≤ fs.nactvar)
    (hr : Ready S fs) (hadm : ∀ a ∈ as, ∀ m ∈ a.numerals, m ∈ S)
    (h : genExplist fs as = .ok fs') :
    Step S fs fs' ∧ ∀ env K r0, fs'.k <+: K → Clean fs r0 →
      Agree (fun r r' : Regs ν => ∀ i < fs.freereg + as.length, r i = r' i) (out env K r0 fs')
        (out env K r0 fs >>= fun r => evalExplist env r fs.freereg as) := by
  induction as generalizing fs with
  | nil =>
    cases h
    refine ⟨.refl hr, fun env K r0 _ _ => ?_⟩
    exact agree_bind_ok_right.mpr (.refl (fun _ _ _ => rfl) _)
  | cons a as ih =>
    obtain ⟨⟨e, fs1⟩, h1, h⟩ := bind_ok.mp h
    obtain ⟨⟨e', fs2⟩, h2, h⟩ := bind_ok.mp h
    have ga := genExpr_spec hS a hn hr (fun _ => hadm a List.mem_cons_self) h1
    obtain ⟨keeps, rfl, hfree⟩ := luaK_exp2nextreg_spec ga.step.ready hS
      (fun m hm => hadm a List.mem_cons_self m (Expr.mem_numerals (ga.numeral ▸ hm))) ga.placed h2
    have step := ga.step.trans keeps.step
    obtain ⟨step', hrest⟩ := ih (step.nactvar ▸ hn) step.ready
      (fun b hb => hadm b (List.mem_cons_of_mem a hb)) h
    refine ⟨step.trans step', fun env K r0 hK hclean => ?_⟩
    have hclean1 : Clean fs1 r0 := fun i hi => hclean i (ga.step.nactvar ▸ hi)
    have hclean2 : Clean fs2 r0 := fun i hi => hclean i (step.nactvar ▸ hi)
    have hK2 := step'.k.trans hK
    have hread := (keeps.reads env K r0 hK2 hclean1).trans
      (ga.reads env K r0 (keeps.step.k.trans hK2) hclean) fun _ _ _ => Same.trans
    rw [reading_of_stays (.inr ⟨fs.freereg, .inl rfl⟩)] at hread
    have hfirst := agree_bind_ok_left.mp hread
    have hassoc : (out env K r0 fs >>= fun r => evalExplist env r fs.freereg (a :: as)) =
        (out env K r0 fs >>= fun r => a.eval env r >>= fun v => .ok (r, v)) >>= fun p =>
          evalExplist env (setReg p.1 fs.freereg p.2) (fs.freereg + 1) as := by
      simp only [evalExplist, bind_assoc, ok_bind]
    have hrest' := hrest env K r0 hK hclean2
    rw [hfree] at hrest'
    rw [hassoc, List.length_cons, Nat.add_comm as.length 1, ← Nat.add_assoc]
    refine hrest'.trans (hfirst.bind fun r p hp =>
      evalExplist_congr env (hn.trans (hr.nactvar.trans (Nat.le_succ _))) fun i hi => ?_)
      fun _ _ _ h h' i hi => (h i hi).trans (h' i hi)
    by_cases heq : i = fs.freereg
    · rw [heq, setReg_self]
      exact hp.2
    · rw [setReg_of_ne heq]
      exact hp.1 i (by omega)

/-! ## The results -/

/-- The start of a function with `n` parameters. -/
def enter (ν : Type) (hp n : Nat) : Gen (FuncState ν) :=
  luaK_reserveregs { (FuncState.open_func hp : FuncState ν) with nactvar := n } n

omit [LuaNumber ν] in
theorem enter_spec {hp : Nat} (S : List ν) (h : enter ν hp n = .ok fs) :
    Ready S fs ∧ fs.code = [] ∧ fs.nactvar = n ∧ fs.freereg = n := by
  obtain ⟨fs1, h1, h⟩ := bind_ok.mp h
  cases h
  simp only [luaK_checkstack, FuncState.open_func, Nat.zero_add] at h1
  split_ifs at h1 with hgt hge
  · cases h1
    exact ⟨⟨rfl, consistent_open_func hp, fun _ _ h => absurd h List.not_mem_nil, Nat.zero_le _,
      (Nat.zero_add n).ge, (Nat.zero_add n).le, (not_le.mp hge).le, fun _ h => by cases h⟩, rfl, rfl,
      Nat.zero_add n⟩
  · cases h1
    exact ⟨⟨rfl, consistent_open_func hp, fun _ _ h => absurd h List.not_mem_nil, Nat.zero_le _,
      (Nat.zero_add n).ge, (Nat.zero_add n).trans_le (not_lt.mp hgt), (by decide : 2 ≤ MAXSTACK),
      fun _ h => by cases h⟩, rfl, rfl, Nat.zero_add n⟩

/-- What is asked of a function's constants and of folding.

An index stands for the constant that was asked for exactly if no two numbers were asked for that
are `==` and different. Folding gives the value that the machine computes. Compiled arithmetic,
with its constants shared and its operations folded, computes the values of its expressions when
their numerals are told apart. -/
theorem constants_keep_meaning_iff (ν : Type) [LuaNumber ν] :
    (∀ (hp : Nat) (rs : List (Request ν)) (is : List Nat) (fs : FuncState ν),
      addConstants (.open_func hp) rs = .ok (is, fs) → (Kept fs rs is ↔ Distinct rs)) ∧
    (∀ (env : Env ν) (op : OpCode) (tm : TMS) (e1 e2 : Expdesc ν) (r : ν),
      tmOf op = some tm → constfolding op e1 e2 = some r →
      ∃ v1 v2, e1.k = .VKNUM v1 ∧ e2.k = .VKNUM v2 ∧
        arith_op env tm (.number v1) (.number v2) = .ok (.number r)) ∧
    (∀ (env : Env ν) (hp n : Nat) (as : List (Expr ν n)) (fs fs' : FuncState ν) (r0 : Regs ν),
      enter ν hp n = .ok fs → genExplist fs as = .ok fs' →
      Separate (as.flatMap Expr.numerals) → (∀ i, n ≤ i → r0 i = .nil) →
      Agree (fun r r' : Regs ν => ∀ i < n + as.length, r i = r' i)
        (run env fs'.k r0 fs'.code) (evalExplist env r0 n as)) := by
  refine ⟨fun hp rs is fs h => kept_iff_distinct h, fun env op tm e1 e2 r htm h => ?_,
    fun env hp n as fs fs' r0 h0 h hS hclean => ?_⟩
  · obtain ⟨v1, h1, h⟩ := Option.bind_eq_some_iff.mp h
    obtain ⟨v2, h2, h⟩ := Option.bind_eq_some_iff.mp h
    exact ⟨v1, v2, k_of_numeral? h1, k_of_numeral? h2, arith_op_of_fold env htm h⟩
  · obtain ⟨hr, hcode, hn, hfree⟩ := enter_spec (as.flatMap Expr.numerals) h0
    have hadm : ∀ a ∈ as, ∀ m ∈ a.numerals, m ∈ as.flatMap Expr.numerals := fun a ha m hm =>
      List.mem_flatMap.mpr ⟨a, ha, hm⟩
    obtain ⟨-, hout⟩ := genExplist_spec hS hn.ge hr hadm h
    have := hout env fs'.k r0 List.prefix_rfl fun i hi => hclean i (hn ▸ hi)
    rw [hfree] at this
    have hstart : out env fs'.k r0 fs = .ok r0 := by
      rw [out, hcode]
      rfl
    rw [hstart, ok_bind] at this
    exact this

/-! On doubles, 0 and -0 are `==` and different. -/

/-- A processor that has no need to compute here. -/
def noArithmetic : Binary64 :=
  ⟨fun a _ => a, fun a _ => a, fun a _ => a, fun a _ => a, fun a _ => a, id⟩

/-- `local a, b = 0, -0` -/
def zeros (ops : Binary64) : List (@Expr Number ops.number 0) :=
  letI := ops.number
  [.number 0 rfl, .minus (.number 0 rfl)]

theorem constants_keep_meaning_apart :
    @Kept Number
      { (FuncState.open_func 0 : FuncState Number) with
        k := [.number 1, .nil, .number 2]
        h := [(.number 2, 2), (.object 0, 1), (.number 1, 0)] }
      [.number 1, .nil, .number 2, .number 1] [0, 1, 2, 0] := by
  refine ((@constants_keep_meaning_iff Number noArithmetic.number).1 0 _ _ _ rfl).mpr ?_
  intro r hr s hs
  simp only [List.mem_cons, List.not_mem_nil, or_false] at hr hs
  rcases hr with rfl | rfl | rfl | rfl <;> rcases hs with rfl | rfl | rfl | rfl <;>
    first | exact id | exact fun h => h.2 rfl | exact fun h => absurd h.1 (by decide)

/-- The constants 0 and -0 share an index, and the second variable gets 0. -/
theorem negative_zero_shares_constant :
    (¬ ∀ (ops : Binary64) (hp : Nat) (rs : List (Request Number)) (is : List Nat)
      (fs : FuncState Number),
      @addConstants Number ops.number (.open_func hp) rs = .ok (is, fs) → Kept fs rs is) ∧
    ¬ ∀ (ops : Binary64) (env : Env Number) (fs fs' : FuncState Number) (r0 : Regs Number),
      enter Number 0 0 = .ok fs → @genExplist Number ops.number 0 fs (zeros ops) = .ok fs' →
      (∀ i, r0 i = .nil) →
      Agree (fun r r' : Regs Number => ∀ i < 2, r i = r' i)
        (@run Number ops.number env fs'.k r0 fs'.code)
        (@evalExplist Number ops.number 0 env r0 0 (zeros ops)) := by
  constructor
  · intro h
    have hk := h noArithmetic 0 [.number 0, .number 0x8000000000000000] [0, 0]
      { (FuncState.open_func 0 : FuncState Number) with
        k := [.number 0]
        h := [(.number 0, 0)] } rfl
    rw [Kept, List.forall₂_cons, List.forall₂_cons] at hk
    exact absurd hk.2.1 (by decide)
  · intro h
    have hk := h noArithmetic ⟨fun _ => none, fun _ a _ => .ok a, .ok⟩ (FuncState.open_func 0)
      { (FuncState.open_func 0 : FuncState Number) with
        code := [CREATE_ABx .LOADK 0 0, CREATE_ABx .LOADK 1 0]
        k := [.number 0]
        h := [(.number 0, 0)]
        freereg := 2 } (fun _ => .nil) rfl rfl (fun _ => rfl)
    exact absurd (hk 1 (by decide)) (by decide)

end Luaxx.Code
