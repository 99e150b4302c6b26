import Luaxx.Vm.Execute

/-!
# What the code checker guarantees

A position is a start if the instructions before it, laid out one after the other, end there; the
other positions are the counts of SETLIST instructions. `symbexec` checks the instruction at every
start, and the interpreter is always at one: this and the value of `L->top` are the invariant of a
run (`AtStart`). Three checks of `symbexec` are weaker than what the interpreter does, so that a run
must not come to an instruction that passes only for that reason (`Covered`).
-/

namespace Luaxx.Vm

open Luaxx.Bytecode

variable {pt : Proto} {st st' : State} {o : Outcome} {i : Instruction}

/-! ## Starts -/

/-- The position after the instruction at `q`. -/
def after (pt : Proto) (q : Nat) : Nat := q + 1 + if isSetlist0 (pt.codeAt q) then 1 else 0

/-- Instructions laid out from `pc` on have a start at a position. -/
inductive StartFrom (pt : Proto) : Nat → Nat → Prop
  | here (pc : Nat) : StartFrom pt pc pc
  | later {pc q : Nat} : StartFrom pt (after pt pc) q → StartFrom pt pc q

abbrev Start (pt : Proto) (q : Nat) : Prop := StartFrom pt 0 q

theorem StartFrom.next {pc q : Nat} (h : StartFrom pt pc q) : StartFrom pt pc (after pt q) := by
  induction h with
  | here pc => exact .later (.here _)
  | later _ ih => exact .later ih

theorem StartFrom.le {pc q : Nat} (h : StartFrom pt pc q) : pc ≤ q := by
  induction h with
  | here pc => exact Nat.le_refl pc
  | later _ ih =>
    rw [after] at ih
    omega

/-- Where a jump may go: not behind a SETLIST that is itself at a start. -/
theorem start_of_run (pt : Proto) (dest : Nat) :
    (setlistRun pt dest % 2 = 0 → Start pt dest) ∧
      (setlistRun pt dest % 2 = 1 →
        ∃ q, dest = q + 1 ∧ Start pt q ∧ isSetlist0 (pt.codeAt q) = true) := by
  induction dest with
  | zero => exact ⟨fun _ => .here 0, fun h => by cases h⟩
  | succ d ih =>
    obtain ⟨heven, hodd⟩ := ih
    -- behind a count there is a start
    have hcount : setlistRun pt d % 2 = 1 → Start pt (d + 1) := by
      intro h
      obtain ⟨q, rfl, hq, hset⟩ := hodd h
      have := hq.next
      rwa [after, hset] at this
    rw [setlistRun]
    split_ifs with hset
    · refine ⟨fun h => hcount (by omega), fun h => ⟨d, rfl, heven (by omega), hset⟩⟩
    · refine ⟨fun _ => ?_, fun h => by cases h⟩
      rcases Nat.mod_two_eq_zero_or_one (setlistRun pt d) with h | h
      · have := (heven h).next
        rwa [after, if_neg hset] at this
      · exact hcount h

/-! ## The checks at a start -/

theorem checkreg_iff {r : Int} : checkreg pt r = true ↔ r < pt.maxstacksize.toNat :=
  decide_eq_true_iff

/-- The instruction at `q` has been checked. -/
def Checked (pt : Proto) (q : Nat) : Prop :=
  ∃ op, GET_OPCODE (pt.codeAt q) = some op ∧ checkInstr pt q op (pt.codeAt q) = true

theorem skip_noReg (pt : Proto) (lastpc q : Nat) {op : OpCode}
    (hop : GET_OPCODE (pt.codeAt q) = some op) :
    q + skip pt lastpc NO_REG q op (argB op (pt.codeAt q)) (argC op (pt.codeAt q)) + 1 =
      after pt q := by
  have hset : isSetlist0 (pt.codeAt q) =
      (decide (op = .SETLIST) && GETARG_C (pt.codeAt q) == 0) := by
    rw [isSetlist0]
    congr 1
    rw [Bool.eq_iff_iff, ← GET_OPCODE_eq_some, hop, Option.some.injEq, decide_eq_true_eq]
  rw [after, hset]
  cases op with
  | SETLIST =>
    show q + (if (GETARG_C (pt.codeAt q) : Int) = 0 then 1 else 0) + 1 = _
    by_cases h : GETARG_C (pt.codeAt q) = 0 <;> simp [h]
  | _ => simp [skip]

theorem symbexecLoop_checked {lastpc fuel pc last r : Nat} (hfuel : lastpc ≤ pc + fuel)
    (h : symbexecLoop pt lastpc NO_REG fuel pc last = some r) {q : Nat} (hq : StartFrom pt pc q)
    (hlt : q < lastpc) : Checked pt q := by
  induction fuel generalizing pc last with
  | zero =>
    have := hq.le
    omega
  | succ fuel ih =>
    have hpc := hq.le
    rw [symbexecLoop, if_pos (by omega)] at h
    simp only at h
    cases hop : GET_OPCODE (pt.codeAt pc) with
    | none =>
      rw [hop] at h
      cases h
    | some op =>
      simp only [hop] at h
      split_ifs at h with hcheck
      cases hq with
      | here _ => exact ⟨op, hop, hcheck⟩
      | later hq =>
        rw [skip_noReg pt lastpc pc hop] at h
        have hafter : pc + 1 ≤ after pt pc := by
          rw [after]
          omega
        exact ih (by omega) h hq

/-- What `luaG_checkcode` has found. -/
structure Accepted (pt : Proto) : Prop where
  pre : precheck pt = true
  checked : ∀ q, Start pt q → (q : Int) < pt.sizecode → Checked pt q

theorem accepted_of_checkcode (h : luaG_checkcode pt = true) : Accepted pt := by
  rw [luaG_checkcode, symbexec] at h
  by_cases hpre : precheck pt = true
  swap
  · rw [if_neg hpre] at h
    cases h
  rw [if_pos hpre] at h
  refine ⟨hpre, fun q hq hlt => ?_⟩
  cases hloop : symbexecLoop pt pt.sizecode.toNat NO_REG pt.sizecode.toNat 0
      (pt.sizecode.toNat - 1) with
  | none =>
    rw [hloop] at h
    cases h
  | some r => exact symbexecLoop_checked (by omega) hloop hq (by omega)

theorem Accepted.sizecode (ha : Accepted pt) :
    0 < pt.sizecode ∧ GET_OPCODE (pt.codeAt (pt.sizecode.toNat - 1)) = some .RETURN := by
  have h := ha.pre
  simp only [precheck, Bool.and_eq_true, decide_eq_true_eq] at h
  exact ⟨h.2.1, GET_OPCODE_eq_some.mpr h.2.2⟩

/-- An instruction that does not return is followed by another word. -/
theorem Accepted.next_lt (ha : Accepted pt) {q : Nat} (hlt : (q : Int) < pt.sizecode)
    (hop : GET_OPCODE (pt.codeAt q) ≠ some .RETURN) : ((q + 1 : Nat) : Int) < pt.sizecode := by
  obtain ⟨hpos, hlast⟩ := ha.sizecode
  by_contra hge
  have hq : pt.sizecode.toNat - 1 = q := by omega
  exact hop (hq ▸ hlast)

/-! ## Safe accesses -/

/-- The access is inside the function and its frame. -/
def Safe (pt : Proto) (st : State) : Access → Prop
  | .code pc => 0 ≤ pc ∧ pc < pt.sizecode
  | .reg r => 0 ≤ r ∧ r < pt.maxstacksize.toNat
  | .openReg r => 0 ≤ r ∧ (r < pt.maxstacksize.toNat ∨ st.isOpen = true ∧ r < st.top)
  | .const i => (i : Int) < pt.sizek
  | .upval i => i < pt.nups.toNat
  | .proto i => (i : Int) < pt.sizep
  | .openResult r top => 0 ≤ r ∧ r < top

/-- The instruction does not pass `symbexec` only because a check is too weak: that of the jump of
LOADBOOL, made for C = 1 only, that of the registers of TFORLOOP, and that of what follows a
TAILCALL, not made for C other than 0. -/
def Covered (pt : Proto) (st : State) (o : Outcome) : Prop :=
  let i := pt.codeAt st.pc.toNat
  match GET_OPCODE i with
  | some .LOADBOOL => GETARG_C i = 0 ∨
      st.pc + 2 < pt.sizecode ∧ isSetlist0 (pt.codeAt (st.pc + 1).toNat) = false
  | some .TFORLOOP => GETARG_A i + 5 < pt.maxstacksize.toNat
  | some .TAILCALL => o.isC = false ∨ luaG_checkopenop (pt.codeAt (st.pc + 1).toNat) = true
  | _ => True

/-- The invariant of a run. -/
structure AtStart (pt : Proto) (st : State) : Prop where
  start : ∃ q : Nat, st.pc = q ∧ Start pt q ∧ (q : Int) < pt.sizecode
  top : st.top = ciTop pt ∨ st.isOpen = true ∧ luaG_checkopenop (pt.codeAt st.pc.toNat) = true

/-- An instruction does what it may, and leaves the invariant. -/
structure Fine (pt : Proto) (st : State) (s : Step) : Prop where
  safe : ∀ acc ∈ s.1, Safe pt st acc
  next : ∀ st', s.2 = some st' → AtStart pt st'

/-! ## The instruction at a start -/

/-- The state is at a start with a checked instruction. -/
structure AtInstr (pt : Proto) (st : State) (q : Nat) (op : OpCode) : Prop where
  pc : st.pc = q
  start : Start pt q
  lt : (q : Int) < pt.sizecode
  opcode : GET_OPCODE (pt.codeAt q) = some op
  check : checkInstr pt q op (pt.codeAt q) = true

namespace AtInstr

variable {q : Nat} {op : OpCode}

theorem parts (h : AtInstr pt st q op) :
    checkreg pt (GETARG_A (pt.codeAt q)) = true ∧
      checkFormat pt q op (argB op (pt.codeAt q)) (argC op (pt.codeAt q)) = true ∧
      checkTest pt q op = true ∧
      checkOp pt q op (GETARG_A (pt.codeAt q)) (argB op (pt.codeAt q))
        (argC op (pt.codeAt q)) = true := by
  have := h.check
  simp only [checkInstr, Bool.and_eq_true] at this
  exact ⟨this.1.1.1, this.1.1.2, this.1.2, this.2⟩

theorem a_lt (h : AtInstr pt st q op) :
    (GETARG_A (pt.codeAt q) : Int) < pt.maxstacksize.toNat := by
  simpa [checkreg] using h.parts.1

theorem formatB (h : AtInstr pt st q op) (hmode : getOpMode op = .iABC) :
    checkArgMode pt (GETARG_B (pt.codeAt q)) (getBMode op) = true := by
  have := h.parts.2.1
  simp only [checkFormat, argB, argC, hmode, Bool.and_eq_true] at this
  exact this.1

theorem formatC (h : AtInstr pt st q op) (hmode : getOpMode op = .iABC) :
    checkArgMode pt (GETARG_C (pt.codeAt q)) (getCMode op) = true := by
  have := h.parts.2.1
  simp only [checkFormat, argB, argC, hmode, Bool.and_eq_true] at this
  exact this.2

theorem b_lt (h : AtInstr pt st q op) (hmode : getOpMode op = .iABC) (hb : getBMode op = .OpArgR) :
    (GETARG_B (pt.codeAt q) : Int) < pt.maxstacksize.toNat := by
  simpa [hb, checkArgMode, checkreg] using h.formatB hmode

theorem c_lt (h : AtInstr pt st q op) (hmode : getOpMode op = .iABC) (hc : getCMode op = .OpArgR) :
    (GETARG_C (pt.codeAt q) : Int) < pt.maxstacksize.toNat := by
  simpa [hc, checkArgMode, checkreg] using h.formatC hmode

theorem safe_RK {x : Nat} (h : checkArgMode pt x .OpArgK = true) : Safe pt st (RK x) := by
  rw [checkArgMode] at h
  rw [RK]
  by_cases hk : ISK x = true
  · simpa [hk, Safe] using h
  · simpa [hk, Safe] using h

theorem rkB (h : AtInstr pt st q op) (hmode : getOpMode op = .iABC) (hb : getBMode op = .OpArgK) :
    Safe pt st (RK (GETARG_B (pt.codeAt q))) :=
  safe_RK (hb ▸ h.formatB hmode)

theorem rkC (h : AtInstr pt st q op) (hmode : getOpMode op = .iABC) (hc : getCMode op = .OpArgK) :
    Safe pt st (RK (GETARG_C (pt.codeAt q))) :=
  safe_RK (hc ▸ h.formatC hmode)

theorem const (h : AtInstr pt st q op) (hmode : getOpMode op = .iABx) (hb : getBMode op = .OpArgK) :
    (GETARG_Bx (pt.codeAt q) : Int) < pt.sizek := by
  have := h.parts.2.1
  simpa [checkFormat, argB, hmode, hb] using this

theorem dest (h : AtInstr pt st q op) (hmode : getOpMode op = .iAsBx)
    (hb : getBMode op = .OpArgR) :
    ∃ d : Nat, (q : Int) + 1 + GETARG_sBx (pt.codeAt q) = d ∧ Start pt d ∧
      (d : Int) < pt.sizecode := by
  have := h.parts.2.1
  simp only [checkFormat, argB, hmode, hb, bne_self_eq_false, Bool.false_or, checkdest,
    Bool.and_eq_true, decide_eq_true_eq, beq_iff_eq] at this
  obtain ⟨⟨h0, hlt⟩, heven⟩ := this
  exact ⟨_, (Int.toNat_of_nonneg h0).symm, (start_of_run pt _).1 heven, by omega⟩

theorem next_start (h : AtInstr pt st q op) (hop : op ≠ .SETLIST) : Start pt (q + 1) := by
  have hset : isSetlist0 (pt.codeAt q) = false := by
    rw [isSetlist0, Bool.and_eq_false_iff]
    refine .inl (Bool.eq_false_iff.mpr fun hs => hop ?_)
    have := GET_OPCODE_eq_some.mpr hs
    rw [h.opcode] at this
    exact Option.some.inj this
  have := h.start.next
  rwa [after, hset] at this

theorem next_lt (ha : Accepted pt) (h : AtInstr pt st q op) (hop : op ≠ .RETURN) :
    ((q + 1 : Nat) : Int) < pt.sizecode :=
  ha.next_lt h.lt (by rw [h.opcode]; simpa using hop)

/-- `L->top` has its own value where an instruction does not use what an open one has left. -/
theorem top_eq (h : AtInstr pt st q op) (hs : AtStart pt st)
    (hop : op ≠ .CALL ∧ op ≠ .TAILCALL ∧ op ≠ .RETURN ∧ op ≠ .SETLIST) : st.top = ciTop pt := by
  refine hs.top.resolve_right fun hopen => ?_
  have hcheck := hopen.2
  rw [h.pc, Int.toNat_natCast, luaG_checkopenop] at hcheck
  simp only [Bool.and_eq_true, Bool.or_eq_true, ← GET_OPCODE_eq_some, h.opcode,
    Option.some.injEq] at hcheck
  tauto

end AtInstr

/-! ## Lists of accesses -/

theorem safe_regs {lo hi : Int} (hlo : 0 ≤ lo) (hhi : hi ≤ pt.maxstacksize.toNat) :
    ∀ acc ∈ regs lo hi, Safe pt st acc := by
  intro acc hacc
  obtain ⟨j, hj, rfl⟩ := List.mem_map.mp hacc
  have := List.mem_range.mp hj
  exact ⟨by omega, by omega⟩

theorem safe_openResults {lo hi : Int} (hlo : 0 ≤ lo) :
    ∀ acc ∈ openResults lo hi, Safe pt st acc := by
  intro acc hacc
  obtain ⟨j, hj, rfl⟩ := List.mem_map.mp hacc
  have := List.mem_range.mp hj
  exact ⟨by omega, by omega⟩

theorem safe_operands (hs : AtStart pt st) {b : Nat} {lo hi : Int} (hlo : 0 ≤ lo)
    (hhi : b ≠ 0 → hi ≤ pt.maxstacksize.toNat) : ∀ acc ∈ operands st b lo hi, Safe pt st acc := by
  rw [operands]
  split_ifs with hb
  · exact safe_regs hlo (hhi hb)
  · intro acc hacc
    obtain ⟨j, hj, rfl⟩ := List.mem_map.mp hacc
    have hlt := List.mem_range.mp hj
    refine ⟨by omega, ?_⟩
    rcases hs.top with htop | ⟨hopen, -⟩
    · rw [htop, ciTop] at hlt
      exact .inl (by omega)
    · exact .inr ⟨hopen, by omega⟩

theorem safe_append {l l' : List Access} (h : ∀ acc ∈ l, Safe pt st acc)
    (h' : ∀ acc ∈ l', Safe pt st acc) : ∀ acc ∈ l ++ l', Safe pt st acc := fun acc hacc =>
  (List.mem_append.mp hacc).elim (h acc) (h' acc)

theorem safe_cons {acc : Access} {l : List Access} (h : Safe pt st acc)
    (h' : ∀ acc ∈ l, Safe pt st acc) : ∀ x ∈ acc :: l, Safe pt st x :=
  List.forall_mem_cons.mpr ⟨h, h'⟩

theorem safe_nil : ∀ acc ∈ ([] : List Access), Safe pt st acc := fun _ h => absurd h List.not_mem_nil

/-! ## What each instruction does -/

theorem fine_goto {s : State} {l : List Access} {d : Nat} {pc : Int} (hpc : pc = d)
    (htop : s.top = ciTop pt) (hd : Start pt d) (hlt : (d : Int) < pt.sizecode)
    (hl : ∀ acc ∈ l, Safe pt st acc) : Fine pt st (l, goto s pc) := by
  refine ⟨hl, fun st' hst' => ?_⟩
  cases hst'
  exact ⟨⟨d, hpc, hd, hlt⟩, .inl htop⟩

namespace AtInstr

variable {q : Nat} {op : OpCode} {l : List Access}

theorem fine_next (h : AtInstr pt st q op) (ha : Accepted pt) (hs : AtStart pt st)
    (hop : op ≠ .CALL ∧ op ≠ .TAILCALL ∧ op ≠ .RETURN ∧ op ≠ .SETLIST)
    (hl : ∀ acc ∈ l, Safe pt st acc) : Fine pt st (l, goto st (st.pc + 1)) :=
  fine_goto (by rw [h.pc]; rfl) (h.top_eq hs hop) (h.next_start hop.2.2.2)
    (h.next_lt ha hop.2.2.1) hl

theorem a_nonneg (_ : AtInstr pt st q op) : (0 : Int) ≤ GETARG_A (pt.codeAt q) :=
  Int.natCast_nonneg _

theorem reg_a (h : AtInstr pt st q op) : Safe pt st (.reg (GETARG_A (pt.codeAt q))) :=
  ⟨h.a_nonneg, h.a_lt⟩

theorem reg_b (h : AtInstr pt st q op) (hmode : getOpMode op = .iABC) (hb : getBMode op = .OpArgR) :
    Safe pt st (.reg (GETARG_B (pt.codeAt q))) :=
  ⟨Int.natCast_nonneg _, h.b_lt hmode hb⟩

/-- A test is followed by a jump. -/
theorem test_jmp (h : AtInstr pt st q op) (ha : Accepted pt) (htest : testTMode op = true)
    (hop : op ≠ .SETLIST) :
    AtInstr pt { st with pc := (q + 1 : Nat) } (q + 1) .JMP ∧
      ((q + 2 : Nat) : Int) < pt.sizecode := by
  have hcheck := h.parts.2.2.1
  simp only [checkTest, htest, Bool.not_true, Bool.false_or, Bool.and_eq_true,
    decide_eq_true_eq] at hcheck
  obtain ⟨hlt, hjmp⟩ := hcheck
  have hstart := h.next_start hop
  have hlt1 : ((q + 1 : Nat) : Int) < pt.sizecode := by omega
  obtain ⟨op', hop', hcheck'⟩ := ha.checked (q + 1) hstart hlt1
  have hjmp' := GET_OPCODE_eq_some.mpr hjmp
  rw [hop', Option.some.injEq] at hjmp'
  subst hjmp'
  exact ⟨⟨rfl, hstart, hlt1, hop', hcheck'⟩, by omega⟩

/-- The jump of a test, or the instruction after it. -/
theorem fine_test (h : AtInstr pt st q op) (ha : Accepted pt) (htest : testTMode op = true)
    (hop : op ≠ .SETLIST) {s : State} (hpc : s.pc = st.pc) (htop : s.top = ciTop pt)
    (cond : Bool) : Fine pt st (testJump pt s cond) := by
  obtain ⟨hjmp, hlt⟩ := h.test_jmp ha htest hop
  have hpc' : s.pc + 1 = (q + 1 : Nat) := by rw [hpc, h.pc]; rfl
  rw [testJump]
  split_ifs
  · obtain ⟨d, hd, hstart, hdlt⟩ := hjmp.dest rfl rfl
    refine fine_goto ?_ htop hstart hdlt (safe_cons ?_ safe_nil)
    · rw [hpc', Int.toNat_natCast, ← hd]
      omega
    · rw [hpc']
      exact ⟨Int.natCast_nonneg _, hjmp.lt⟩
  · refine fine_goto ?_ htop (hjmp.next_start (by decide)) hlt safe_nil
    rw [hpc']
    rfl

/-- The accesses of a test besides those of its jump. -/
theorem fine_test_with (h : AtInstr pt st q op) (ha : Accepted pt) (hs : AtStart pt st)
    (htest : testTMode op = true)
    (hop : op ≠ .CALL ∧ op ≠ .TAILCALL ∧ op ≠ .RETURN ∧ op ≠ .SETLIST) (cond : Bool)
    (hl : ∀ acc ∈ l, Safe pt st acc) :
    Fine pt st (l ++ (testJump pt st cond).1, (testJump pt st cond).2) := by
  have hfine := h.fine_test ha htest hop.2.2.2 rfl (h.top_eq hs hop) cond
  exact ⟨safe_append hl hfine.safe, hfine.next⟩

theorem fine_loadbool (h : AtInstr pt st q .LOADBOOL) (ha : Accepted pt) (hs : AtStart pt st)
    (hc : Covered pt st o) : Fine pt st (execute pt st o (pt.codeAt q)) := by
  have hop : OpCode.LOADBOOL ≠ .CALL ∧ OpCode.LOADBOOL ≠ .TAILCALL ∧ OpCode.LOADBOOL ≠ .RETURN ∧
      OpCode.LOADBOOL ≠ .SETLIST := by decide
  simp only [execute, h.opcode]
  split_ifs with hjump
  · rw [Covered, h.pc, Int.toNat_natCast, h.opcode] at hc
    obtain ⟨hlt, hset⟩ := hc.resolve_left hjump
    have hstart := (h.next_start hop.2.2.2).next
    have hpc : ((q : Int) + 1).toNat = q + 1 := by omega
    rw [hpc] at hset
    rw [after, hset] at hstart
    refine fine_goto (d := q + 1 + 1) ?_ (h.top_eq hs hop) hstart (by omega)
      (safe_cons h.reg_a safe_nil)
    rw [h.pc]
    omega
  · exact h.fine_next ha hs hop (safe_cons h.reg_a safe_nil)

theorem fine_self (h : AtInstr pt st q .SELF) (ha : Accepted pt) (hs : AtStart pt st) :
    Fine pt st (execute pt st o (pt.codeAt q)) := by
  have hcheck := h.parts.2.2.2
  simp only [checkOp, checkreg, decide_eq_true_eq] at hcheck
  simp only [execute, h.opcode]
  refine h.fine_next ha hs (by decide) ?_
  exact safe_cons (h.reg_b rfl rfl) (safe_cons ⟨by omega, hcheck⟩
    (safe_cons (h.rkC rfl rfl) (safe_cons h.reg_a safe_nil)))

theorem fine_concat (h : AtInstr pt st q .CONCAT) (ha : Accepted pt) (hs : AtStart pt st) :
    Fine pt st (execute pt st o (pt.codeAt q)) := by
  have hcheck : GETARG_B (pt.codeAt q) < GETARG_C (pt.codeAt q) := by
    simpa [checkOp, argB, argC, getOpMode, luaP_opmodes] using h.parts.2.2.2
  have hb := h.b_lt rfl rfl
  have hc := h.c_lt rfl rfl
  simp only [execute, h.opcode]
  refine h.fine_next ha hs (by decide) ?_
  exact safe_append (safe_cons ⟨by omega, by omega⟩ (safe_regs (by omega) (by omega)))
    (safe_cons (h.reg_b rfl rfl) (safe_cons h.reg_a safe_nil))

theorem upval_lt (h : AtInstr pt st q op) (hop : op = .GETUPVAL ∨ op = .SETUPVAL) :
    GETARG_B (pt.codeAt q) < pt.nups.toNat := by
  rcases hop with rfl | rfl <;>
    simpa [checkOp, argB, getOpMode, luaP_opmodes] using h.parts.2.2.2

theorem fine_upval (h : AtInstr pt st q op) (ha : Accepted pt) (hs : AtStart pt st)
    (hop : op = .GETUPVAL ∨ op = .SETUPVAL) : Fine pt st (execute pt st o (pt.codeAt q)) := by
  have hcheck := h.upval_lt hop
  rcases hop with rfl | rfl <;>
  · simp only [execute, h.opcode]
    exact h.fine_next ha hs (by decide) (safe_cons hcheck (safe_cons h.reg_a safe_nil))

/-- The state after an open instruction, whose results the next one uses. -/
theorem next_open (h : AtInstr pt st q op) (ha : Accepted pt) (hop : op ≠ .RETURN)
    (hset : op ≠ .SETLIST) (hopen : luaG_checkopenop (pt.codeAt (q + 1)) = true) {top : Int}
    {st' : State} (hst : some ⟨st.pc + 1, top, true⟩ = some st') : AtStart pt st' := by
  cases hst
  have hpc : st.pc + 1 = (q + 1 : Nat) := by rw [h.pc]; rfl
  refine ⟨⟨q + 1, hpc, h.next_start hset, h.next_lt ha hop⟩, .inr ⟨rfl, ?_⟩⟩
  show luaG_checkopenop (pt.codeAt (st.pc + 1).toNat) = true
  rw [hpc, Int.toNat_natCast]
  exact hopen

/-- What is checked of a call. -/
theorem call_checks (h : AtInstr pt st q op) (hop : op = .CALL ∨ op = .TAILCALL) :
    (GETARG_B (pt.codeAt q) ≠ 0 → (GETARG_A (pt.codeAt q) : Int) + GETARG_B (pt.codeAt q) ≤
      pt.maxstacksize.toNat) ∧
    (if GETARG_C (pt.codeAt q) = 0 then luaG_checkopenop (pt.codeAt (q + 1)) = true
      else (GETARG_A (pt.codeAt q) : Int) + GETARG_C (pt.codeAt q) - 1 ≤
        pt.maxstacksize.toNat) := by
  have hcheck := h.parts.2.2.2
  have ha := h.a_lt
  have hparts : (((GETARG_B (pt.codeAt q) : Int) == 0) || checkreg pt
        (GETARG_A (pt.codeAt q) + (GETARG_B (pt.codeAt q) : Int) - 1)) = true ∧
      (if (GETARG_C (pt.codeAt q) : Int) - 1 = -1 then luaG_checkopenop (pt.codeAt (q + 1))
        else (GETARG_C (pt.codeAt q) : Int) - 1 == 0 || checkreg pt
          (GETARG_A (pt.codeAt q) + ((GETARG_C (pt.codeAt q) : Int) - 1) - 1)) = true := by
    rcases hop with rfl | rfl
    · exact Bool.and_eq_true_iff.mp hcheck
    · exact Bool.and_eq_true_iff.mp hcheck
  obtain ⟨hb, hc⟩ := hparts
  simp only [checkreg, Bool.or_eq_true, beq_iff_eq, decide_eq_true_eq] at hb hc
  refine ⟨fun hb0 => by omega, ?_⟩
  split_ifs with hc0
  · simpa [hc0] using hc
  · rw [if_neg (by omega)] at hc
    simp only [Bool.or_eq_true, beq_iff_eq, decide_eq_true_eq] at hc
    omega

theorem fine_call (h : AtInstr pt st q .CALL) (ha : Accepted pt) (hs : AtStart pt st) :
    Fine pt st (execute pt st o (pt.codeAt q)) := by
  obtain ⟨hb, hc⟩ := h.call_checks (.inl rfl)
  have hargs := safe_cons h.reg_a (safe_operands hs h.a_nonneg hb)
  simp only [execute, h.opcode, callResults]
  split_ifs with hc0
  · rw [if_pos hc0] at hc
    exact ⟨safe_append hargs (safe_openResults h.a_nonneg),
      fun st' hst' => h.next_open ha (by decide) (by decide) hc hst'⟩
  · rw [if_neg hc0] at hc
    refine ⟨safe_append hargs (safe_regs h.a_nonneg hc), fun st' hst' => ?_⟩
    cases hst'
    exact ⟨⟨q + 1, by rw [h.pc]; rfl, h.next_start (by decide), h.next_lt ha (by decide)⟩, .inl rfl⟩

theorem fine_tailcall (h : AtInstr pt st q .TAILCALL) (ha : Accepted pt) (hs : AtStart pt st)
    (hc : Covered pt st o) : Fine pt st (execute pt st o (pt.codeAt q)) := by
  obtain ⟨hb, -⟩ := h.call_checks (.inr rfl)
  have hargs := safe_cons h.reg_a (safe_operands hs h.a_nonneg hb)
  simp only [execute, h.opcode]
  split_ifs with hisC
  · rw [Covered, h.pc, Int.toNat_natCast, h.opcode] at hc
    have hopen := hc.resolve_left (by rw [hisC]; decide)
    have hpc : ((q : Int) + 1).toNat = q + 1 := by omega
    rw [hpc] at hopen
    exact ⟨safe_append hargs (safe_openResults h.a_nonneg),
      fun st' hst' => h.next_open ha (by decide) (by decide) hopen hst'⟩
  · refine ⟨hargs, fun st' hst' => ?_⟩
    cases hst'

theorem fine_return (h : AtInstr pt st q .RETURN) (hs : AtStart pt st) :
    Fine pt st (execute pt st o (pt.codeAt q)) := by
  have hcheck : (GETARG_B (pt.codeAt q) : Int) - 1 ≤ 0 ∨
      GETARG_A (pt.codeAt q) + ((GETARG_B (pt.codeAt q) : Int) - 1) - 1 <
        pt.maxstacksize.toNat := by
    have := Bool.or_eq_true_iff.mp h.parts.2.2.2
    rwa [decide_eq_true_iff, checkreg_iff] at this
  have ha := h.a_lt
  simp only [execute, h.opcode]
  refine ⟨safe_operands hs h.a_nonneg fun hb => by omega, fun st' hst' => ?_⟩
  cases hst'

theorem fine_forloop (h : AtInstr pt st q op) (ha : Accepted pt) (hs : AtStart pt st)
    (hop : op = .FORLOOP ∨ op = .FORPREP) : Fine pt st (execute pt st o (pt.codeAt q)) := by
  have hcheck := h.parts.2.2.2
  have hreg : (GETARG_A (pt.codeAt q) : Int) + 3 < pt.maxstacksize.toNat := by
    rcases hop with rfl | rfl <;> simpa [checkOp, checkreg] using hcheck
  have hmode : getOpMode op = .iAsBx ∧ getBMode op = .OpArgR := by
    rcases hop with rfl | rfl <;> decide
  have hne : op ≠ .CALL ∧ op ≠ .TAILCALL ∧ op ≠ .RETURN ∧ op ≠ .SETLIST := by
    rcases hop with rfl | rfl <;> decide
  obtain ⟨d, hd, hstart, hdlt⟩ := h.dest hmode.1 hmode.2
  have hpc : st.pc + 1 + GETARG_sBx (pt.codeAt q) = d := by rw [h.pc]; exact hd
  have htop := h.top_eq hs hne
  have hsafe : ∀ k : Int, 0 ≤ k → k ≤ 3 → Safe pt st (.reg (GETARG_A (pt.codeAt q) + k)) :=
    fun k h1 h2 => ⟨by omega, by omega⟩
  have hregs := safe_cons h.reg_a (safe_cons (hsafe 1 (by omega) (by omega)) safe_nil)
  rcases hop with rfl | rfl
  · simp only [execute, h.opcode]
    split_ifs
    · refine fine_goto hpc htop hstart hdlt (safe_cons (hsafe 2 (by omega) (by omega))
        (safe_cons h.reg_a (safe_cons (hsafe 1 (by omega) (by omega))
          (safe_cons (hsafe 3 (by omega) (by omega)) safe_nil))))
    · exact h.fine_next ha hs hne (safe_cons (hsafe 2 (by omega) (by omega)) hregs)
  · simp only [execute, h.opcode]
    exact fine_goto hpc htop hstart hdlt (safe_cons h.reg_a
      (safe_cons (hsafe 1 (by omega) (by omega)) (safe_cons (hsafe 2 (by omega) (by omega)) safe_nil)))

theorem fine_tforloop (h : AtInstr pt st q .TFORLOOP) (ha : Accepted pt)
    (hc : Covered pt st o) : Fine pt st (execute pt st o (pt.codeAt q)) := by
  have hcheck : (1 : Int) ≤ GETARG_C (pt.codeAt q) ∧
      (GETARG_A (pt.codeAt q) : Int) + 2 + GETARG_C (pt.codeAt q) < pt.maxstacksize.toNat := by
    simpa [checkOp, argC, getOpMode, luaP_opmodes, checkreg_iff] using h.parts.2.2.2
  rw [Covered, h.pc, Int.toNat_natCast, h.opcode] at hc
  simp only at hc
  have hfine := h.fine_test (s := { st with top := ciTop pt }) ha rfl (by decide) rfl rfl o.cond
  simp only [execute, h.opcode]
  refine ⟨safe_append (safe_append (safe_regs (by omega) (by omega))
    (safe_regs (by omega) (by omega))) hfine.safe, hfine.next⟩

theorem fine_setlist (h : AtInstr pt st q .SETLIST) (ha : Accepted pt) (hs : AtStart pt st) :
    Fine pt st (execute pt st o (pt.codeAt q)) := by
  have hcheck : ((GETARG_B (pt.codeAt q) : Int) ≤ 0 ∨
        (GETARG_A (pt.codeAt q) : Int) + GETARG_B (pt.codeAt q) < pt.maxstacksize.toNat) ∧
      (GETARG_C (pt.codeAt q) ≠ 0 ∨ (q : Int) + 1 < pt.sizecode - 1) := by
    simpa [checkOp, argB, argC, getOpMode, luaP_opmodes, checkreg_iff] using h.parts.2.2.2
  obtain ⟨hb, hc⟩ := hcheck
  have hset : isSetlist0 (pt.codeAt q) = (GETARG_C (pt.codeAt q) == 0) := by
    rw [isSetlist0, GET_OPCODE_eq_some.mp h.opcode, Bool.true_and]
  have hstart := h.start.next
  rw [after, hset] at hstart
  have hnext := h.next_lt ha (by decide)
  have hregs : ∀ acc ∈ if o.cond then operands st (GETARG_B (pt.codeAt q))
      (GETARG_A (pt.codeAt q) + 1) (GETARG_A (pt.codeAt q) + GETARG_B (pt.codeAt q) + 1) else [],
      Safe pt st acc := by
    split_ifs
    · exact safe_operands hs (by omega) fun hb0 => by omega
    · exact safe_nil
  have htop : (if GETARG_B (pt.codeAt q) ≠ 0 then st.top else ciTop pt) = ciTop pt := by
    split_ifs with hb0
    · refine hs.top.resolve_right fun hopen => hb0 ?_
      have hcheck := hopen.2
      rw [h.pc, Int.toNat_natCast, luaG_checkopenop, Bool.and_eq_true] at hcheck
      exact eq_of_beq hcheck.2
    · rfl
  simp only [execute, h.opcode, htop, h.pc]
  by_cases hc0 : GETARG_C (pt.codeAt q) = 0
  · have hlt := hc.resolve_left (fun hne => hne hc0)
    have hword : Safe pt st (.code ((q : Int) + 1)) := ⟨by omega, by omega⟩
    rw [hc0] at hstart
    simp only [hc0, if_true]
    exact fine_goto (s := ⟨0, ciTop pt, false⟩) (d := q + 1 + 1) (by omega) rfl hstart (by omega)
      (safe_append (safe_append (safe_cons h.reg_a safe_nil) (safe_cons hword safe_nil)) hregs)
  · rw [if_neg (by simpa using hc0)] at hstart
    simp only [hc0, if_false]
    exact fine_goto (s := ⟨0, ciTop pt, false⟩) (d := q + 1) rfl rfl hstart hnext
      (safe_append (safe_append (safe_cons h.reg_a safe_nil) safe_nil) hregs)

theorem fine_loadnil (h : AtInstr pt st q .LOADNIL) (ha : Accepted pt) (hs : AtStart pt st) :
    Fine pt st (execute pt st o (pt.codeAt q)) := by
  have hb := h.b_lt rfl rfl
  simp only [execute, h.opcode]
  exact h.fine_next ha hs (by decide)
    (safe_cons (h.reg_b rfl rfl) (safe_regs h.a_nonneg (by omega)))

theorem fine_vararg (h : AtInstr pt st q .VARARG) (ha : Accepted pt) (hs : AtStart pt st) :
    Fine pt st (execute pt st o (pt.codeAt q)) := by
  have hcheck := h.parts.2.2.2
  simp only [checkOp, Bool.and_eq_true, checkreg_iff] at hcheck
  have hopen : (GETARG_B (pt.codeAt q) : Int) - 1 != -1 || luaG_checkopenop (pt.codeAt (q + 1)) :=
    hcheck.1.2
  have hreg : (GETARG_A (pt.codeAt q) : Int) + ((GETARG_B (pt.codeAt q) : Int) - 1) - 1 <
      pt.maxstacksize.toNat := hcheck.2
  simp only [execute, h.opcode]
  split_ifs with hb
  · rw [hb] at hopen
    exact ⟨safe_openResults h.a_nonneg,
      fun st' hst' => h.next_open ha (by decide) (by decide) hopen hst'⟩
  · exact h.fine_next ha hs (by decide) (safe_regs h.a_nonneg (by omega))

/-- What is checked of a CLOSURE. -/
theorem closure_checks (h : AtInstr pt st q .CLOSURE) :
    (GETARG_Bx (pt.codeAt q) : Int) < pt.sizep ∧
      ∀ j < pt.nupsAt (GETARG_Bx (pt.codeAt q)),
        GET_OPCODE (pt.codeAt (q + 1 + j)) = some .GETUPVAL ∨
          GET_OPCODE (pt.codeAt (q + 1 + j)) = some .MOVE := by
  have hcheck := h.parts.2.2.2
  simp only [checkOp, Bool.and_eq_true, checkPseudo, List.all_eq_true, List.mem_range,
    Bool.or_eq_true, ← GET_OPCODE_eq_some] at hcheck
  refine ⟨of_decide_eq_true hcheck.1.1, fun j hj => ?_⟩
  rw [Nat.add_assoc, Nat.add_comm 1 j]
  exact hcheck.2 j hj

/-- The pseudo-instructions are checked as instructions, and the code goes on after them. -/
theorem closure_start (h : AtInstr pt st q .CLOSURE) (ha : Accepted pt) {j : Nat}
    (hj : j ≤ pt.nupsAt (GETARG_Bx (pt.codeAt q))) :
    Start pt (q + 1 + j) ∧ ((q + 1 + j : Nat) : Int) < pt.sizecode := by
  induction j with
  | zero => exact ⟨h.next_start (by decide), h.next_lt ha (by decide)⟩
  | succ j ih =>
    obtain ⟨hstart, hlt⟩ := ih (by omega)
    obtain ⟨op, hop, hcheck⟩ := ha.checked _ hstart hlt
    have hpseudo : AtInstr pt ⟨(q + 1 + j : Nat), 0, false⟩ (q + 1 + j) op :=
      ⟨rfl, hstart, hlt, hop, hcheck⟩
    have hne : op ≠ .SETLIST ∧ op ≠ .RETURN := by
      have := h.closure_checks.2 j (by omega)
      rw [hop, Option.some.injEq, Option.some.injEq] at this
      rcases this with rfl | rfl <;> decide
    exact ⟨hpseudo.next_start hne.1, hpseudo.next_lt ha hne.2⟩

theorem safe_pseudo (h : AtInstr pt st q .CLOSURE) (ha : Accepted pt) :
    ∀ acc ∈ pseudoAccesses pt (q + 1) (pt.nupsAt (GETARG_Bx (pt.codeAt q))),
      Safe pt st acc := by
  intro acc hacc
  obtain ⟨j, hj, hacc⟩ := List.mem_flatMap.mp hacc
  have hj := List.mem_range.mp hj
  obtain ⟨hstart, hlt⟩ := h.closure_start ha (Nat.le_of_lt hj)
  obtain ⟨op, hop, hcheck⟩ := ha.checked _ hstart hlt
  have hpseudo : AtInstr pt ⟨(q + 1 + j : Nat), 0, false⟩ (q + 1 + j) op :=
    ⟨rfl, hstart, hlt, hop, hcheck⟩
  have hpc : ((q : Int) + 1 + j).toNat = q + 1 + j := by omega
  have hcode : Safe pt st (.code ((q : Int) + 1 + j)) := ⟨by omega, by omega⟩
  simp only [hpc] at hacc
  have hops := h.closure_checks.2 j hj
  rw [hop, Option.some.injEq, Option.some.injEq] at hops
  split_ifs at hacc with hup
  · rw [← GET_OPCODE_eq_some, hop, Option.some.injEq] at hup
    have hsafe : Safe pt st (.upval _) := hpseudo.upval_lt (.inl hup)
    exact safe_cons hcode (safe_cons hsafe safe_nil) acc hacc
  · obtain rfl := hops.resolve_left fun hup' => hup (GET_OPCODE_eq_some.mp (hup' ▸ hop))
    have hsafe : Safe pt st (.reg _) := hpseudo.reg_b rfl rfl
    exact safe_cons hcode (safe_cons hsafe safe_nil) acc hacc

theorem fine_closure (h : AtInstr pt st q .CLOSURE) (ha : Accepted pt) (hs : AtStart pt st) :
    Fine pt st (execute pt st o (pt.codeAt q)) := by
  obtain ⟨hstart, hlt⟩ := h.closure_start ha (Nat.le_refl _)
  simp only [execute, h.opcode, h.pc]
  refine fine_goto (by omega) (h.top_eq hs (by decide)) hstart hlt ?_
  exact safe_append (safe_cons h.closure_checks.1 (h.safe_pseudo ha)) (safe_cons h.reg_a safe_nil)

theorem fine_jmp (h : AtInstr pt st q .JMP) (hs : AtStart pt st) :
    Fine pt st (execute pt st o (pt.codeAt q)) := by
  obtain ⟨d, hd, hstart, hlt⟩ := h.dest rfl rfl
  simp only [execute, h.opcode, h.pc]
  exact fine_goto hd (h.top_eq hs (by decide)) hstart hlt safe_nil

theorem fine_unary (h : AtInstr pt st q op) (ha : Accepted pt) (hs : AtStart pt st)
    (hop : op = .MOVE ∨ op = .UNM ∨ op = .NOT ∨ op = .LEN) :
    Fine pt st (execute pt st o (pt.codeAt q)) := by
  rcases hop with rfl | rfl | rfl | rfl <;>
  · simp only [execute, h.opcode]
    exact h.fine_next ha hs (by decide)
      (safe_cons (h.reg_b rfl rfl) (safe_cons h.reg_a safe_nil))

theorem fine_const (h : AtInstr pt st q op) (ha : Accepted pt) (hs : AtStart pt st)
    (hop : op = .LOADK ∨ op = .GETGLOBAL ∨ op = .SETGLOBAL) :
    Fine pt st (execute pt st o (pt.codeAt q)) := by
  rcases hop with rfl | rfl | rfl <;>
  · have hk : Safe pt st (.const (GETARG_Bx (pt.codeAt q))) := h.const rfl rfl
    simp only [execute, h.opcode]
    exact h.fine_next ha hs (by decide) (safe_cons hk (safe_cons h.reg_a safe_nil))

theorem fine_arith (h : AtInstr pt st q op) (ha : Accepted pt) (hs : AtStart pt st)
    (hop : op = .ADD ∨ op = .SUB ∨ op = .MUL ∨ op = .DIV ∨ op = .MOD ∨ op = .POW) :
    Fine pt st (execute pt st o (pt.codeAt q)) := by
  rcases hop with rfl | rfl | rfl | rfl | rfl | rfl <;>
  · simp only [execute, h.opcode]
    exact h.fine_next ha hs (by decide)
      (safe_cons (h.rkB rfl rfl) (safe_cons (h.rkC rfl rfl) (safe_cons h.reg_a safe_nil)))

theorem fine_compare (h : AtInstr pt st q op) (ha : Accepted pt) (hs : AtStart pt st)
    (hop : op = .EQ ∨ op = .LT ∨ op = .LE) : Fine pt st (execute pt st o (pt.codeAt q)) := by
  rcases hop with rfl | rfl | rfl <;>
  · simp only [execute, h.opcode]
    exact h.fine_test_with ha hs rfl (by decide) o.cond
      (safe_cons (h.rkB rfl rfl) (safe_cons (h.rkC rfl rfl) safe_nil))

theorem fine_testset (h : AtInstr pt st q .TESTSET) (ha : Accepted pt) (hs : AtStart pt st) :
    Fine pt st (execute pt st o (pt.codeAt q)) := by
  have hset : ∀ acc ∈ if o.cond then [Access.reg (GETARG_A (pt.codeAt q))] else [],
      Safe pt st acc := by
    split_ifs
    · exact safe_cons h.reg_a safe_nil
    · exact safe_nil
  simp only [execute, h.opcode]
  exact h.fine_test_with ha hs rfl (by decide) o.cond (safe_cons (h.reg_b rfl rfl) hset)

/-- Every opcode. -/
theorem fine_execute (h : AtInstr pt st q op) (ha : Accepted pt) (hs : AtStart pt st)
    (hc : Covered pt st o) : Fine pt st (execute pt st o (pt.codeAt q)) := by
  cases op with
  | MOVE | UNM | NOT | LEN => exact h.fine_unary ha hs (by decide)
  | LOADK | GETGLOBAL | SETGLOBAL => exact h.fine_const ha hs (by decide)
  | ADD | SUB | MUL | DIV | MOD | POW => exact h.fine_arith ha hs (by decide)
  | EQ | LT | LE => exact h.fine_compare ha hs (by decide)
  | GETUPVAL | SETUPVAL => exact h.fine_upval ha hs (by decide)
  | FORLOOP | FORPREP => exact h.fine_forloop ha hs (by decide)
  | LOADBOOL => exact h.fine_loadbool ha hs hc
  | LOADNIL => exact h.fine_loadnil ha hs
  | GETTABLE =>
    simp only [execute, h.opcode]
    exact h.fine_next ha hs (by decide)
      (safe_cons (h.reg_b rfl rfl) (safe_cons (h.rkC rfl rfl) (safe_cons h.reg_a safe_nil)))
  | SETTABLE =>
    simp only [execute, h.opcode]
    exact h.fine_next ha hs (by decide)
      (safe_cons h.reg_a (safe_cons (h.rkB rfl rfl) (safe_cons (h.rkC rfl rfl) safe_nil)))
  | NEWTABLE | CLOSE =>
    simp only [execute, h.opcode]
    exact h.fine_next ha hs (by decide) (safe_cons h.reg_a safe_nil)
  | SELF => exact h.fine_self ha hs
  | CONCAT => exact h.fine_concat ha hs
  | JMP => exact h.fine_jmp hs
  | TEST =>
    simp only [execute, h.opcode]
    exact h.fine_test_with ha hs rfl (by decide) o.cond (safe_cons h.reg_a safe_nil)
  | TESTSET => exact h.fine_testset ha hs
  | CALL => exact h.fine_call ha hs
  | TAILCALL => exact h.fine_tailcall ha hs hc
  | RETURN => exact h.fine_return hs
  | TFORLOOP => exact h.fine_tforloop ha hc
  | SETLIST => exact h.fine_setlist ha hs
  | CLOSURE => exact h.fine_closure ha hs
  | VARARG => exact h.fine_vararg ha hs

end AtInstr

/-! ## Runs -/

/-- The states of the runs from the entry, whose steps are all allowed. -/
inductive Reaches (pt : Proto) (allowed : State → Outcome → Prop) : State → Prop
  | entry : Reaches pt allowed (entry pt)
  | step {st st' : State} {o : Outcome} : Reaches pt allowed st → allowed st o →
      (step pt st o).2 = some st' → Reaches pt allowed st'

theorem AtStart.fine_step (hs : AtStart pt st) (ha : Accepted pt) (hc : Covered pt st o) :
    Fine pt st (step pt st o) := by
  obtain ⟨q, hpc, hstart, hlt⟩ := hs.start
  obtain ⟨op, hop, hcheck⟩ := ha.checked q hstart hlt
  have h : AtInstr pt st q op := ⟨hpc, hstart, hlt, hop, hcheck⟩
  have hfine := h.fine_execute (o := o) ha hs hc
  rw [step, hpc, Int.toNat_natCast]
  exact ⟨safe_cons ⟨Int.natCast_nonneg _, hlt⟩ hfine.safe, hfine.next⟩

theorem Reaches.atStart (hr : Reaches pt (Covered pt) st) (ha : Accepted pt) : AtStart pt st := by
  induction hr with
  | entry => exact ⟨⟨0, rfl, .here 0, ha.sizecode.1⟩, .inl rfl⟩
  | step _ hc hst ih => exact (ih.fine_step ha hc).next _ hst

/-- In a run of accepted code whose steps are covered, every step is safe. -/
theorem luaG_checkcode_sound (h : luaG_checkcode pt = true) (hr : Reaches pt (Covered pt) st)
    (hc : Covered pt st o) : ∀ acc ∈ (step pt st o).1, Safe pt st acc := by
  have ha := accepted_of_checkcode h
  exact ((hr.atStart ha).fine_step ha hc).safe

/-- `LOADBOOL 0 1 c; RETURN 0 1`, with two registers. -/
def loadboolProto (c : Nat) : Proto where
  k := []
  code := [CREATE_ABC .LOADBOOL 0 1 c, CREATE_ABC .RETURN 0 1 0]
  p := []
  lineinfo := []
  locvars := []
  upvalues := []
  source := none
  sizeupvalues := 0
  sizek := 0
  sizecode := 2
  sizelineinfo := 0
  sizep := 0
  sizelocvars := 0
  linedefined := 0
  lastlinedefined := 0
  nups := 0
  numparams := 0
  is_vararg := 0
  maxstacksize := 2

theorem luaG_checkcode_sound_loadbool : Safe (loadboolProto 0) ⟨1, 2, false⟩ (.code 1) := by
  refine luaG_checkcode_sound (o := ⟨false, 0, false⟩) (by decide)
    (.step (o := ⟨false, 0, false⟩) .entry ?_ rfl) ?_ _ List.mem_cons_self
  · exact .inl rfl
  · trivial

/-- With C = 2 the code is accepted, and runs to the word behind its end. -/
theorem luaG_checkcode_skipsEnd : luaG_checkcode (loadboolProto 2) = true ∧
    Reaches (loadboolProto 2) (fun _ _ => True) ⟨2, 2, false⟩ ∧
    .code 2 ∈ (step (loadboolProto 2) ⟨2, 2, false⟩ ⟨false, 0, false⟩).1 ∧
    ¬ Safe (loadboolProto 2) ⟨2, 2, false⟩ (.code 2) := by
  refine ⟨by decide, .step (o := ⟨false, 0, false⟩) .entry trivial rfl, List.mem_cons_self, ?_⟩
  exact fun h => absurd h.2 (by decide)

end Luaxx.Vm
