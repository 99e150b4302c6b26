import Luaxx.Vm.Verifier

/-!
# The names in error messages (`ldebug.c`, `lfunc.c`)

`getobjname` looks for the last instruction that changed a register, and names the value by what
that instruction reads. `symbexec` finds it on a walk through the code, which takes the jumps
forward that it meets; an execution may come another way. A run is followed here with what each
register was last written by and where its value comes from.
-/

namespace Luaxx.Vm

open Luaxx.Bytecode

/-! ## `getobjname` -/

inductive ObjKind where
  | localvar | global | field | upvalue | method
  deriving DecidableEq, Repr

/-- A kind and a name. -/
abbrev ObjName : Type := ObjKind × TString

/-- `getstr`, of a string that is not `NULL`. -/
def getstr (s : Option TString) : TString := s.getD []

/-- `luaF_getlocalname`, from an index on. -/
def luaF_getlocalname : List LocVar → (local_number pc : Int) → Option TString
  | [], _, _ => none
  | v :: locvars, local_number, pc =>
    if v.startpc ≤ pc then
      if pc < v.endpc then
        if local_number - 1 = 0 then some (getstr v.varname)
        else luaF_getlocalname locvars (local_number - 1) pc
      else luaF_getlocalname locvars local_number pc
    else none

/-- `svalue(&p->k[i])`, of a string. -/
def svalue (p : Proto) (i : Nat) : TString :=
  match p.kAt i with
  | .string s => getstr s
  | _ => []

def kname (p : Proto) (c : Nat) : TString :=
  if ISK c ∧ (p.kAt (INDEXK c)).ttisstring then svalue p (INDEXK c) else [63]  -- "?"

/-- The cases of the `switch` of `getobjname` that find a name. -/
def named (p : Proto) (i : Instruction) : Option ObjName :=
  match GET_OPCODE i with
  | some .GETGLOBAL => some (.global, svalue p (GETARG_Bx i))
  | some .GETTABLE => some (.field, kname p (GETARG_C i))
  | some .GETUPVAL =>
    some (.upvalue, if p.upvalues = [] then [63] else getstr (p.upvalues.getD (GETARG_B i) none))
  | some .SELF => some (.method, kname p (GETARG_C i))
  | _ => none

/-- `symbexec` takes the instruction for one that changes `reg`. -/
def changes (pt : Proto) (reg q : Nat) : Bool :=
  match GET_OPCODE (pt.codeAt q) with
  | none => false
  | some op => lastAfter op 1 0 reg (GETARG_A (pt.codeAt q)) (argB op (pt.codeAt q)) == 1

/-- Where `symbexec` goes from `pc`. -/
def walkNext (pt : Proto) (lastpc reg pc : Nat) : Nat :=
  match GET_OPCODE (pt.codeAt pc) with
  | none => pc + 1
  | some op => pc + skip pt lastpc reg pc op (argB op (pt.codeAt pc)) (argC op (pt.codeAt pc)) + 1

/-- The positions of the walk from `pc` to `lastpc`: code order, with the jumps forward taken. -/
def walkFrom (pt : Proto) (lastpc reg : Nat) : Nat → Nat → List Nat
  | 0, _ => []
  | fuel + 1, pc =>
    if pc < lastpc then pc :: walkFrom pt lastpc reg fuel (walkNext pt lastpc reg pc) else []

/-- The last position on the walk that changes `reg`. -/
def lastChange (pt : Proto) (lastpc reg : Nat) : Option Nat :=
  ((walkFrom pt lastpc reg lastpc 0).filter (changes pt reg)).getLast?

theorem lastAfter_eq (op : OpCode) (pc last reg a : Nat) (b : Int) :
    lastAfter op pc last reg a b = if lastAfter op 1 0 reg a b = 1 then pc else last := by
  unfold lastAfter
  cases op <;> simp only <;> split_ifs <;> simp_all

theorem symbexecLoop_eq (pt : Proto) (lastpc reg : Nat) {fuel pc last r : Nat}
    (h : symbexecLoop pt lastpc reg fuel pc last = some r) :
    r = ((walkFrom pt lastpc reg fuel pc).filter (changes pt reg)).getLast?.getD last := by
  induction fuel generalizing pc last with
  | zero =>
    cases h
    rfl
  | succ fuel ih =>
    rw [symbexecLoop] at h
    rw [walkFrom]
    split_ifs at h ⊢ with hlt
    · cases hop : GET_OPCODE (pt.codeAt pc) with
      | none =>
        simp only [hop] at h
        cases h
      | some op =>
        simp only [hop] at h
        split_ifs at h with hcheck
        have hr := ih h
        rw [lastAfter_eq] at hr
        have hnext : walkNext pt lastpc reg pc = pc +
            skip pt lastpc reg pc op (argB op (pt.codeAt pc)) (argC op (pt.codeAt pc)) + 1 := by
          simp only [walkNext, hop]
        have hchanges : changes pt reg pc =
            (lastAfter op 1 0 reg (GETARG_A (pt.codeAt pc)) (argB op (pt.codeAt pc)) == 1) := by
          simp only [changes, hop]
        rw [hr, hnext, List.filter_cons, hchanges]
        simp only [beq_iff_eq]
        split_ifs with hmark
        · rw [List.getLast?_cons]
          rfl
        · rfl
    · cases h
      rfl

/-- What `symbexec` returns, unless a check fails. -/
theorem symbexec_eq (pt : Proto) (lastpc reg : Nat) :
    symbexec pt lastpc reg = 0 ∨ symbexec pt lastpc reg =
      pt.codeAt ((lastChange pt lastpc reg).getD (pt.sizecode.toNat - 1)) ∧
        precheck pt = true := by
  rw [symbexec]
  split_ifs with hpre
  · cases hloop : symbexecLoop pt lastpc reg lastpc 0 (pt.sizecode.toNat - 1) with
    | none => exact .inl rfl
    | some last =>
      have hlast := symbexecLoop_eq pt lastpc reg hloop
      rw [lastChange, ← hlast]
      exact .inr ⟨rfl, hpre⟩
  · exact .inl rfl

theorem mem_lastChange {pt : Proto} {lastpc reg q : Nat} (h : lastChange pt lastpc reg = some q) :
    changes pt reg q = true :=
  (List.mem_filter.mp (List.mem_of_getLast? h)).2

/-- A MOVE that is found writes the register. -/
theorem changes_MOVE {pt : Proto} {reg q : Nat} (h : changes pt reg q = true)
    (hop : GET_OPCODE (pt.codeAt q) = some .MOVE) : GETARG_A (pt.codeAt q) = reg := by
  simp only [changes, hop, lastAfter, testAMode, luaP_opmodes, Bool.true_and, beq_iff_eq] at h
  split_ifs at h with ha
  exact ha

theorem symbexec_MOVE {pt : Proto} {lastpc reg : Nat}
    (hop : GET_OPCODE (symbexec pt lastpc reg) = some .MOVE)
    (hlt : GETARG_B (symbexec pt lastpc reg) < GETARG_A (symbexec pt lastpc reg)) :
    ∃ q, lastChange pt lastpc reg = some q ∧ symbexec pt lastpc reg = pt.codeAt q ∧
      GETARG_A (pt.codeAt q) = reg := by
  rcases symbexec_eq pt lastpc reg with h | ⟨h, hpre⟩
  · rw [h] at hlt
    exact absurd hlt (by decide)
  · cases hq : lastChange pt lastpc reg with
    | none =>
      -- the final return
      rw [hq, Option.getD_none] at h
      simp only [precheck, Bool.and_eq_true, ← GET_OPCODE_eq_some] at hpre
      rw [h, hpre.2.2] at hop
      cases hop
    | some q =>
      rw [hq, Option.getD_some] at h
      exact ⟨q, rfl, h, changes_MOVE (mem_lastChange hq) (h ▸ hop)⟩

/-- `getobjname`, for a function of Lua at `pc`. -/
def getobjname (p : Proto) (pc stackpos : Nat) : Option ObjName :=
  match luaF_getlocalname p.locvars (stackpos + 1) pc with
  | some name => some (.localvar, name)
  | none =>
    if _h : GET_OPCODE (symbexec p pc stackpos) = some .MOVE ∧
        GETARG_B (symbexec p pc stackpos) < GETARG_A (symbexec p pc stackpos) then
      getobjname p pc (GETARG_B (symbexec p pc stackpos))
    else named p (symbexec p pc stackpos)
termination_by stackpos
decreasing_by
  obtain ⟨q, -, hi, ha⟩ := symbexec_MOVE _h.1 _h.2
  calc GETARG_B (symbexec p pc stackpos) < GETARG_A (symbexec p pc stackpos) := _h.2
    _ = stackpos := by rw [hi, ha]

/-! ## Where a value comes from -/

/-- What is known of the value in a register. -/
structure Cell where
  /-- The instruction that wrote it last. -/
  writer : Option Nat
  /-- The number of instructions executed by then. -/
  time : Nat
  /-- The place that it was last obtained from. -/
  origin : Option ObjName

abbrev Cells : Type := Nat → Cell

/-- Where the value that is in a register at `q` comes from: the local variable of the register,
if it has one. -/
def originOf (pt : Proto) (q : Nat) (cells : Cells) (r : Nat) : Option ObjName :=
  match luaF_getlocalname pt.locvars (r + 1) q with
  | some name => some (.localvar, name)
  | none => (cells r).origin

/-- What an instruction that is done has written into a register, if it has. A called function has
its frame from `ra` on. -/
def written (pt : Proto) (q : Nat) (o : Outcome) (cells : Cells) (r : Nat) :
    Option (Option ObjName) :=
  let i := pt.codeAt q
  let a := GETARG_A i
  let b := GETARG_B i
  let c := GETARG_C i
  match GET_OPCODE i with
  | none => none
  | some .MOVE => if r = a then some (originOf pt q cells b) else none
  | some .GETUPVAL | some .GETGLOBAL | some .GETTABLE => if r = a then some (named pt i) else none
  | some .LOADK | some .LOADBOOL | some .NEWTABLE | some .CLOSURE => if r = a then some none else none
  | some .ADD | some .SUB | some .MUL | some .DIV | some .MOD | some .POW =>
    if r = a then some none else none
  | some .UNM | some .NOT | some .LEN => if r = a then some none else none
  | some .LOADNIL => if r = b ∨ a ≤ r ∧ r ≤ b then some none else none
  | some .SELF =>
    if r = a then some (named pt i)
    else if r = a + 1 then some (originOf pt q cells b) else none
  -- the results are built in place of the operands
  | some .CONCAT => if r = a ∨ b ≤ r ∧ r ≤ c then some none else none
  | some .TESTSET => if o.cond ∧ r = a then some (originOf pt q cells b) else none
  | some .CALL | some .TAILCALL => if a ≤ r then some none else none
  | some .FORLOOP => if r = a ∨ o.cond ∧ r = a + 3 then some none else none
  -- strings are converted in place
  | some .FORPREP => if r = a ∨ o.cond ∧ (r = a + 1 ∨ r = a + 2) then some none else none
  | some .TFORLOOP => if a + 3 ≤ r ∨ o.cond ∧ r = a + 2 then some none else none
  | some .VARARG => if a ≤ r ∧ r < (if b = 0 then a + o.n else a + b - 1) then some none else none
  | some .SETGLOBAL | some .SETUPVAL | some .SETTABLE | some .JMP | some .EQ | some .LT
  | some .LE | some .TEST | some .RETURN | some .SETLIST | some .CLOSE => none

/-- The registers after the instruction at `q`, by which `n` have been executed before. -/
def Cells.put (cells : Cells) (n q : Nat) (new : Nat → Option (Option ObjName)) : Cells := fun r =>
  match new r with
  | some origin => ⟨some q, n + 1, origin⟩
  | none => cells r

def track (pt : Proto) (n : Nat) (st : State) (o : Outcome) (cells : Cells) : Cells :=
  cells.put n st.pc.toNat (written pt st.pc.toNat o cells)

/-- The states of the executions of a function, with what the registers hold. -/
inductive Executes (pt : Proto) : Nat → State → Cells → Prop
  | entry : Executes pt 0 (entry pt) fun _ => ⟨none, 0, none⟩
  | step {n : Nat} {st st' : State} {o : Outcome} {cells : Cells} : Executes pt n st cells →
      (step pt st o).2 = some st' → Executes pt (n + 1) st' (track pt n st o cells)

variable {pt : Proto} {n q : Nat} {st : State} {o : Outcome} {cells : Cells}

/-- What the cells say of the instructions that have written them. -/
structure Sound (pt : Proto) (n : Nat) (cells : Cells) : Prop where
  time : ∀ r, (cells r).time ≤ n
  /-- What an instruction with a name has written is what it names. -/
  name : ∀ r q kn, (cells r).writer = some q → GETARG_A (pt.codeAt q) = r →
    named pt (pt.codeAt q) = some kn → (cells r).origin = some kn
  /-- A copy is the value of the register it was copied from, until that is written. -/
  copied : ∀ r q, (cells r).writer = some q → GETARG_A (pt.codeAt q) = r →
    GET_OPCODE (pt.codeAt q) = some .MOVE →
    (cells (GETARG_B (pt.codeAt q))).time < (cells r).time →
      (cells r).origin = originOf pt q cells (GETARG_B (pt.codeAt q))

theorem originOf_congr {cells' : Cells} {r : Nat} (h : cells r = cells' r) :
    originOf pt q cells r = originOf pt q cells' r := by
  rw [originOf, originOf, h]

theorem Sound.put (h : Sound pt n cells) {new : Nat → Option (Option ObjName)}
    (hname : ∀ origin kn, new (GETARG_A (pt.codeAt q)) = some origin →
      named pt (pt.codeAt q) = some kn → origin = some kn)
    (hcopy : ∀ origin, new (GETARG_A (pt.codeAt q)) = some origin →
      GET_OPCODE (pt.codeAt q) = some .MOVE →
        origin = originOf pt q cells (GETARG_B (pt.codeAt q))) :
    Sound pt (n + 1) (cells.put n q new) := by
  have hput : ∀ {r origin}, new r = some origin → cells.put n q new r = ⟨some q, n + 1, origin⟩ :=
    fun hr => by simp only [Cells.put, hr]
  have hkeep : ∀ {r}, new r = none → cells.put n q new r = cells r := fun hr => by
    simp only [Cells.put, hr]
  refine ⟨fun r => ?_, fun r q' kn hw ha hkn => ?_, fun r q' hw ha hop hlt => ?_⟩
  · cases hr : new r with
    | some origin => rw [hput hr]
    | none =>
      rw [hkeep hr]
      exact (h.time r).trans (Nat.le_succ n)
  · cases hr : new r with
    | some origin =>
      rw [hput hr] at hw ⊢
      cases hw
      exact hname origin kn (ha ▸ hr) hkn
    | none =>
      rw [hkeep hr] at hw ⊢
      exact h.name r q' kn hw ha hkn
  · -- what was copied has not been written now, as it would not be older than the copy
    have hb : new (GETARG_B (pt.codeAt q')) = none := by
      cases hb : new (GETARG_B (pt.codeAt q')) with
      | none => rfl
      | some origin =>
        rw [hput hb] at hlt
        cases hr : new r with
        | some origin' =>
          rw [hput hr] at hlt
          exact absurd hlt (Nat.lt_irrefl _)
        | none =>
          rw [hkeep hr] at hlt
          have := h.time r
          simp only at hlt
          omega
    rw [originOf_congr (hkeep hb)]
    cases hr : new r with
    | some origin =>
      rw [hput hr] at hw ⊢
      cases hw
      exact hcopy origin (ha ▸ hr) hop
    | none =>
      rw [hkeep hr] at hw hlt ⊢
      rw [hkeep hb] at hlt
      exact h.copied r q' hw ha hop hlt

theorem written_named {origin : Option ObjName} {kn : ObjName}
    (h : written pt q o cells (GETARG_A (pt.codeAt q)) = some origin)
    (hkn : named pt (pt.codeAt q) = some kn) : origin = some kn := by
  have hwritten : written pt q o cells (GETARG_A (pt.codeAt q)) =
      some (named pt (pt.codeAt q)) := by
    have hnamed := hkn
    unfold named at hnamed
    split at hnamed
    next hop => simp only [written, hop, if_true]
    next hop => simp only [written, hop, if_true]
    next hop => simp only [written, hop, if_true]
    next hop => simp only [written, hop, if_true]
    next => cases hnamed
  rw [h, Option.some.injEq] at hwritten
  exact hwritten.trans hkn

theorem written_MOVE {origin : Option ObjName}
    (h : written pt q o cells (GETARG_A (pt.codeAt q)) = some origin)
    (hop : GET_OPCODE (pt.codeAt q) = some .MOVE) :
    origin = originOf pt q cells (GETARG_B (pt.codeAt q)) := by
  simpa [written, hop] using h.symm

theorem Sound.track (h : Sound pt n cells) : Sound pt (n + 1) (track pt n st o cells) :=
  h.put (fun _ _ => written_named) fun _ => written_MOVE

theorem Executes.sound (h : Executes pt n st cells) : Sound pt n cells := by
  induction h with
  | entry =>
    refine ⟨fun r => Nat.le_refl 0, fun r q kn hw => ?_, fun r q hw => ?_⟩
    · cases hw
    · cases hw
  | step _ _ ih => exact ih.track

/-! ## Right names -/

/-- The execution has come to the error the way of `symbexec`, for a register: the last instruction
that has written it is the last one on the walk that changes it. If this has copied a lower
register, that has not been written since, it belongs to the same local variable as then, and the
same is true of it. -/
inductive Follows (pt : Proto) (pc : Nat) (cells : Cells) : Nat → Prop
  | named {r : Nat} {name : TString} :
      luaF_getlocalname pt.locvars (r + 1) pc = some name → Follows pt pc cells r
  | written {r q : Nat} : (cells r).writer = some q → lastChange pt pc r = some q →
      GETARG_A (pt.codeAt q) = r → GET_OPCODE (pt.codeAt q) ≠ some .MOVE → Follows pt pc cells r
  | copied {r q : Nat} : (cells r).writer = some q → lastChange pt pc r = some q →
      GET_OPCODE (pt.codeAt q) = some .MOVE →
      (cells (GETARG_B (pt.codeAt q))).time < (cells r).time →
      luaF_getlocalname pt.locvars (GETARG_B (pt.codeAt q) + 1) q =
        luaF_getlocalname pt.locvars (GETARG_B (pt.codeAt q) + 1) pc →
      Follows pt pc cells (GETARG_B (pt.codeAt q)) → Follows pt pc cells r

/-- `getobjname` of a register that is no local variable, where it finds a name. -/
theorem getobjname_found {p : Proto} {pc r : Nat} {kn : ObjName}
    (hlocal : luaF_getlocalname p.locvars (r + 1) pc = none) (h : getobjname p pc r = some kn) :
    ∃ q, lastChange p pc r = some q ∧
      (GET_OPCODE (p.codeAt q) ≠ some .MOVE ∧ named p (p.codeAt q) = some kn ∨
        GET_OPCODE (p.codeAt q) = some .MOVE ∧
          getobjname p pc (GETARG_B (p.codeAt q)) = some kn) := by
  rw [getobjname, hlocal] at h
  simp only at h
  split_ifs at h with hmove
  · obtain ⟨q, hq, hi, -⟩ := symbexec_MOVE hmove.1 hmove.2
    rw [hi] at hmove h
    exact ⟨q, hq, .inr ⟨hmove.1, h⟩⟩
  · rcases symbexec_eq p pc r with hi | ⟨hi, hpre⟩
    · rw [hi] at h
      cases h
    cases hq : lastChange p pc r with
    | none =>
      rw [hq, Option.getD_none] at hi
      simp only [precheck, Bool.and_eq_true, ← GET_OPCODE_eq_some] at hpre
      rw [hi] at h
      simp only [Vm.named, hpre.2.2] at h
      cases h
    | some q =>
      rw [hq, Option.getD_some] at hi
      rw [hi] at h
      refine ⟨q, rfl, .inl ⟨fun hop => ?_, h⟩⟩
      simp only [Vm.named, hop] at h
      cases h

theorem originOf_local {pc r : Nat} {kn : ObjName} {name : TString}
    (hlocal : luaF_getlocalname pt.locvars (r + 1) pc = some name)
    (h : getobjname pt pc r = some kn) : originOf pt pc cells r = some kn := by
  rw [getobjname, hlocal] at h
  rw [originOf, hlocal]
  exact h

theorem Follows.origin {pc r : Nat} {kn : ObjName} (hf : Follows pt pc cells r)
    (hs : Sound pt n cells) (h : getobjname pt pc r = some kn) :
    originOf pt pc cells r = some kn := by
  induction hf generalizing kn with
  | named hlocal => exact originOf_local hlocal h
  | @written r q hwriter hlast ha hop =>
    cases hlocal : luaF_getlocalname pt.locvars (r + 1) pc with
    | some name => exact originOf_local hlocal h
    | none =>
      obtain ⟨q', hq', hfound⟩ := getobjname_found hlocal h
      rw [hlast, Option.some.injEq] at hq'
      subst hq'
      have hname := (hfound.resolve_right fun hmove => hop hmove.1).2
      rw [originOf, hlocal]
      exact hs.name r q kn hwriter ha hname
  | @copied r q hwriter hlast hop htime hsame _ ih =>
    cases hlocal : luaF_getlocalname pt.locvars (r + 1) pc with
    | some name => exact originOf_local hlocal h
    | none =>
      obtain ⟨q', hq', hfound⟩ := getobjname_found hlocal h
      rw [hlast, Option.some.injEq] at hq'
      subst hq'
      have hname := (hfound.resolve_left fun hmove => hmove.1 hop).2
      have ha := changes_MOVE (mem_lastChange hlast) hop
      have horigin := hs.copied r q hwriter ha hop htime
      rw [originOf, hlocal]
      rw [originOf, hsame] at horigin
      exact horigin.trans (ih hname)

end Luaxx.Vm
