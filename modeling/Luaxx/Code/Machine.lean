import Luaxx.Code.Expressions

/-!
# Straight-line code (`lvm.c`)

`luaV_execute` on the instructions that arithmetic on constants, locals and globals compiles to.
-/

namespace Luaxx.Code

variable {ν : Type}

/-- The registers of a function, from `base` on. -/
abbrev Regs (ν : Type) : Type := Nat → TValue ν

def setReg (regs : Regs ν) (r : Nat) (v : TValue ν) : Regs ν :=
  fun i => if i = r then v else regs i

@[simp] theorem setReg_self (regs : Regs ν) (r : Nat) (v : TValue ν) : setReg regs r v r = v :=
  if_pos rfl

theorem setReg_of_ne {regs : Regs ν} {r i : Nat} {v : TValue ν} (h : i ≠ r) :
    setReg regs r v i = regs i :=
  if_neg h

/-- `RKB` and `RKC`. -/
def RK (k : List (TValue ν)) (regs : Regs ν) (x : Nat) : TValue ν :=
  if ISK x then k.getD (INDEXK x) .nil else regs x

section Execute

variable [LuaNumber ν] (env : Env ν) (k : List (TValue ν)) (regs : Regs ν)

def execArith (op : TMS) (ra : Nat) (rb rc : TValue ν) : Except String (Regs ν) := do
  let v ← arith_op env op rb rc
  .ok (setReg regs ra v)

def execute (i : Instruction) : Except String (Regs ν) :=
  let ra := GETARG_A i
  let rkb := RK k regs (GETARG_B i)
  let rkc := RK k regs (GETARG_C i)
  let kbx := k.getD (GETARG_Bx i) .nil
  match GET_OPCODE i with
  | some .MOVE => .ok (setReg regs ra (regs (GETARG_B i)))
  | some .LOADK => .ok (setReg regs ra kbx)
  | some .LOADBOOL => .ok (setReg regs ra (.boolean (GETARG_B i != 0)))
  | some .LOADNIL =>
    -- downwards from B, and B at any rate
    let rb := GETARG_B i
    .ok fun r => if r = rb ∨ (ra ≤ r ∧ r ≤ rb) then .nil else regs r
  | some .GETGLOBAL => do
    let v ← env.getglobal kbx
    .ok (setReg regs ra v)
  | some .ADD => execArith env regs .ADD ra rkb rkc
  | some .SUB => execArith env regs .SUB ra rkb rkc
  | some .MUL => execArith env regs .MUL ra rkb rkc
  | some .DIV => execArith env regs .DIV ra rkb rkc
  | some .MOD => execArith env regs .MOD ra rkb rkc
  | some .POW => execArith env regs .POW ra rkb rkc
  | some .UNM => execArith env regs .UNM ra (regs (GETARG_B i)) (regs (GETARG_B i))
  | _ => .ok regs

def run (code : List Instruction) : Except String (Regs ν) := code.foldlM (execute env k) regs

theorem run_append (c c' : List Instruction) :
    run env k regs (c ++ c') = run env k regs c >>= fun r => run env k r c' := by
  rw [run, List.foldlM_append]
  rfl

theorem run_concat (c : List Instruction) (i : Instruction) :
    run env k regs (c ++ [i]) = run env k regs c >>= fun r => execute env k r i := by
  rw [run_append]
  congr 1
  funext r
  simp [run]

end Execute

/-! ## Single instructions -/

section Instructions

variable [LuaNumber ν] {env : Env ν} {k : List (TValue ν)} {regs : Regs ν} {i : Instruction}
  {a b bx : Nat}

theorem execute_of_MOVE (h : GET_OPCODE i = some .MOVE) :
    execute env k regs i = .ok (setReg regs (GETARG_A i) (regs (GETARG_B i))) := by
  simp only [execute, h]

theorem execute_of_LOADK (h : GET_OPCODE i = some .LOADK) :
    execute env k regs i = .ok (setReg regs (GETARG_A i) (k.getD (GETARG_Bx i) .nil)) := by
  simp only [execute, h]

theorem execute_of_LOADBOOL (h : GET_OPCODE i = some .LOADBOOL) :
    execute env k regs i = .ok (setReg regs (GETARG_A i) (.boolean (GETARG_B i != 0))) := by
  simp only [execute, h]

/-- Loading nil from `GETARG_A` to `GETARG_B`, which is not before it. -/
theorem execute_of_LOADNIL (h : GET_OPCODE i = some .LOADNIL) (hle : GETARG_A i ≤ GETARG_B i) :
    execute env k regs i =
      .ok fun r => if GETARG_A i ≤ r ∧ r ≤ GETARG_B i then .nil else regs r := by
  simp only [execute, h]
  congr 1
  funext r
  have : (r = GETARG_B i ∨ GETARG_A i ≤ r ∧ r ≤ GETARG_B i) ↔
      (GETARG_A i ≤ r ∧ r ≤ GETARG_B i) := by omega
  simp only [this]

theorem execute_of_GETGLOBAL (h : GET_OPCODE i = some .GETGLOBAL) :
    execute env k regs i =
      env.getglobal (k.getD (GETARG_Bx i) .nil) >>= fun v =>
        .ok (setReg regs (GETARG_A i) v) := by
  simp only [execute, h]

theorem execute_of_UNM (h : GET_OPCODE i = some .UNM) :
    execute env k regs i =
      execArith env regs .UNM (GETARG_A i) (regs (GETARG_B i)) (regs (GETARG_B i)) := by
  simp only [execute, h]

theorem execute_MOVE (ha : a < 256) (hb : b < 512) :
    execute env k regs (CREATE_ABC .MOVE a b 0) = .ok (setReg regs a (regs b)) := by
  have h0 : 0 < 512 := by decide
  rw [execute_of_MOVE (GET_OPCODE_CREATE_ABC ha hb h0), GETARG_A_CREATE_ABC ha hb h0,
    GETARG_B_CREATE_ABC ha hb h0]

theorem execute_LOADK (ha : a < 256) (hbx : bx < 2 ^ 18) :
    execute env k regs (CREATE_ABx .LOADK a bx) = .ok (setReg regs a (k.getD bx .nil)) := by
  rw [execute_of_LOADK (GET_OPCODE_CREATE_ABx ha hbx), GETARG_A_CREATE_ABx ha hbx,
    GETARG_Bx_CREATE_ABx ha hbx]

theorem execute_LOADBOOL (ha : a < 256) (hb : b < 512) :
    execute env k regs (CREATE_ABC .LOADBOOL a b 0) = .ok (setReg regs a (.boolean (b != 0))) := by
  have h0 : 0 < 512 := by decide
  rw [execute_of_LOADBOOL (GET_OPCODE_CREATE_ABC ha hb h0), GETARG_A_CREATE_ABC ha hb h0,
    GETARG_B_CREATE_ABC ha hb h0]

theorem execute_GETGLOBAL (ha : a < 256) (hbx : bx < 2 ^ 18) :
    execute env k regs (SETARG_A (CREATE_ABx .GETGLOBAL 0 bx) a) =
      env.getglobal (k.getD bx .nil) >>= fun v => .ok (setReg regs a v) := by
  have h0 : 0 < 256 := by decide
  have hop := (GET_OPCODE_SETARG_A _ a).trans (GET_OPCODE_CREATE_ABx (o := .GETGLOBAL) h0 hbx)
  rw [execute_of_GETGLOBAL hop, GETARG_A_SETARG_A ha, GETARG_Bx_SETARG_A,
    GETARG_Bx_CREATE_ABx h0 hbx]

theorem execute_UNM (ha : a < 256) (hb : b < 512) :
    execute env k regs (SETARG_A (CREATE_ABC .UNM 0 b 0) a) =
      execArith env regs .UNM a (regs b) (regs b) := by
  have h0 : 0 < 256 := by decide
  have h0' : 0 < 512 := by decide
  have hop := (GET_OPCODE_SETARG_A _ a).trans (GET_OPCODE_CREATE_ABC (o := .UNM) h0 hb h0')
  rw [execute_of_UNM hop, GETARG_A_SETARG_A ha, GETARG_B_SETARG_A,
    GETARG_B_CREATE_ABC h0 hb h0']

/-- A `LOADNIL` that is extended by one register is followed by nothing. -/
theorem execute_LOADNIL_extended {reg : Nat} (h : GET_OPCODE i = some .LOADNIL)
    (hle : GETARG_A i ≤ GETARG_B i) (hreg : reg = GETARG_B i + 1) (hlt : reg < 512) :
    execute env k regs (SETARG_B i reg) =
      execute env k regs i >>= fun r => .ok (setReg r reg .nil) := by
  have hB := GETARG_B_SETARG_B (i := i) hlt
  have hle' : GETARG_A (SETARG_B i reg) ≤ GETARG_B (SETARG_B i reg) := by
    rw [hB, GETARG_A_SETARG_B]
    omega
  rw [execute_of_LOADNIL ((GET_OPCODE_SETARG_B i reg).trans h) hle', execute_of_LOADNIL h hle,
    hB, GETARG_A_SETARG_B, Result.ok_bind]
  congr 1
  funext j
  simp only [setReg]
  split_ifs <;> first | rfl | omega

/-- The register has been set by the `LOADNIL`. -/
theorem execute_LOADNIL_covers {reg : Nat} (h : GET_OPCODE i = some .LOADNIL)
    (hge : GETARG_A i ≤ reg) (hle : reg ≤ GETARG_B i) :
    execute env k regs i = execute env k regs i >>= fun r => .ok (setReg r reg .nil) := by
  rw [execute_of_LOADNIL h (hge.trans hle), Result.ok_bind]
  congr 1
  funext j
  simp only [setReg]
  split_ifs <;> first | rfl | omega

end Instructions

end Luaxx.Code
