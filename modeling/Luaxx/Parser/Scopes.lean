import Luaxx.Parser.Locals

/-!
# The scopes of local variables

What the manual says of the locals of a function: a local is in scope from the end of its declaration
to the end of the innermost block around it, and the locals in scope at a place occupy the registers
from 0 on in the order of their declarations. The scopes are read off the statements; the
parser's state does not occur.
-/

namespace Luaxx.Parser.Locals

/-- A local with its register and its scope, from `startpc` up to `endpc`. -/
structure Local where
  varname : String
  register : Nat
  startpc : Nat
  endpc : Nat
  deriving DecidableEq, Repr

namespace Local

variable (v : Local)

def activeAt (pc : Int) : Bool := v.startpc ≤ pc ∧ pc < v.endpc

def locvar : LocVar := ⟨v.varname, v.startpc, v.endpc⟩

end Local

/-- The locals in scope. -/
def active (pc : Int) (l : List Local) : List Local := l.filter (·.activeAt pc)

/-- Locals that one declaration gives the registers from `register` on. -/
def declared : List String → (register startpc endpc : Nat) → List Local
  | [], _, _, _ => []
  | name :: names, register, startpc, endpc =>
    ⟨name, register, startpc, endpc⟩ :: declared names (register + 1) startpc endpc

mutual

/-- The number of instructions. -/
def Statement.size : Statement → Nat
  | .exprstat code => code
  | .dostat block upval => block.size + upval.toNat
  | .ifstat cond block upval more => cond + block.size + upval.toNat + more.size
  | .whilestat cond block upval => cond + block.size + upval.toNat + 1
  | .fornum _ exps block upval scope =>
    exps + 1 + block.size + upval.toNat + scope.toNat + forloop true
  | .forlist _ _ exps block upval scope =>
    exps + 1 + block.size + upval.toNat + scope.toNat + forloop false
  | .repeatstat block cond upval =>
    block.size + cond + (if upval then 2 else 0) + upval.toNat + upval.toNat
  | .localstat _ _ exps => exps
  | .localfunc _ body => body

def Chunk.size : Chunk → Nat
  | .done => 0
  | .next stat rest => stat.size + rest.size

def Clauses.size : Clauses → Nat
  | .done => 0
  | .elseblock block upval => 1 + block.size + upval.toNat
  | .elseif cond block upval more => 1 + cond + block.size + upval.toNat + more.size

end

/-- The number of locals that stay in scope after the statement. -/
def Statement.opens : Statement → Nat
  | .localstat _ names _ => names.length + 1
  | .localfunc _ _ => 1
  | _ => 0

def Chunk.opens : Chunk → Nat
  | .done => 0
  | .next stat rest => stat.opens + rest.opens

/-- The locals of a `for` statement whose block has the locals `inner`, and `size` instructions:
hidden ones in scope in the whole loop, and declared ones in scope in its body. -/
def forScope (control names : List String) (isnum : Bool) (size : Nat) (upval scope : Bool)
    (inner : List Local) (register startpc : Nat) : List Local :=
  let body := startpc + 1 + size + upval.toNat
  declared control register startpc (body + scope.toNat + forloop isnum) ++
    (declared names (register + control.length) (startpc + 1) body ++ inner)

mutual

/-- The locals of a statement at `pc`, in a block that ends at `endpc` and has locals in the
registers below `register`. -/
def Statement.scope : Statement → (register pc endpc : Nat) → List Local
  | .exprstat _, _, _, _ => []
  | .dostat block _, register, pc, _ => block.scope register pc (pc + block.size)
  | .ifstat cond block upval more, register, pc, _ =>
    block.scope register (pc + cond) (pc + cond + block.size) ++
      more.scope register (pc + cond + block.size + upval.toNat)
  | .whilestat cond block _, register, pc, _ =>
    block.scope register (pc + cond) (pc + cond + block.size)
  | .fornum varname exps block upval scope, register, pc, _ =>
    forScope ["(for index)", "(for limit)", "(for step)"] [varname] true block.size upval scope
      (block.scope (register + 4) (pc + exps + 1) (pc + exps + 1 + block.size)) register (pc + exps)
  | .forlist indexname names exps block upval scope, register, pc, _ =>
    forScope ["(for generator)", "(for state)", "(for control)"] (indexname :: names) false
      block.size upval scope
      (block.scope (register + (names.length + 4)) (pc + exps + 1) (pc + exps + 1 + block.size))
      register (pc + exps)
  -- the locals of the block are in scope in the condition
  | .repeatstat block cond upval, register, pc, _ =>
    block.scope register pc (pc + block.size + cond + if upval then 2 else 0)
  | .localstat name names exps, register, pc, endpc =>
    declared (name :: names) register (pc + exps) endpc
  | .localfunc name body, register, pc, endpc => declared [name] register (pc + body) endpc

def Chunk.scope : Chunk → (register pc endpc : Nat) → List Local
  | .done, _, _, _ => []
  | .next stat rest, register, pc, endpc =>
    stat.scope register pc endpc ++ rest.scope (register + stat.opens) (pc + stat.size) endpc

def Clauses.scope : Clauses → (register pc : Nat) → List Local
  | .done, _, _ => []
  | .elseblock block _, register, pc => block.scope register (pc + 1) (pc + 1 + block.size)
  | .elseif cond block upval more, register, pc =>
    block.scope register (pc + 1 + cond) (pc + 1 + cond + block.size) ++
      more.scope register (pc + 1 + cond + block.size + upval.toNat)

end

/-- The locals of a function. Its parameters are in scope in all of it but the final `OP_RETURN`. -/
def Function.scope (f : Function) : List Local :=
  declared (f.self ++ f.parlist) 0 0 f.chunk.size ++
    f.chunk.scope (f.self.length + f.parlist.length) 0 f.chunk.size

/-! ## Declarations -/

section declared

variable {names : List String} {register startpc endpc : Nat}

theorem declared_nil : declared [] register startpc endpc = [] := rfl

theorem declared_cons (name : String) : declared (name :: names) register startpc endpc =
    ⟨name, register, startpc, endpc⟩ :: declared names (register + 1) startpc endpc := rfl

@[simp] theorem length_declared (names : List String) (register startpc endpc : Nat) :
    (declared names register startpc endpc).length = names.length := by
  induction names generalizing register with
  | nil => rfl
  | cons name names ih => simp [declared_cons, ih]

theorem declared_append (names names' : List String) (register startpc endpc : Nat) :
    declared (names ++ names') register startpc endpc =
      declared names register startpc endpc ++
        declared names' (register + names.length) startpc endpc := by
  induction names generalizing register with
  | nil => simp [declared_nil]
  | cons name names ih =>
    have hregister : register + 1 + names.length = register + (names.length + 1) := by omega
    simp [declared_cons, ih, hregister]

theorem mem_declared {v : Local} (hv : v ∈ declared names register startpc endpc) :
    v.startpc = startpc ∧ v.endpc = endpc := by
  induction names generalizing register with
  | nil => simp [declared_nil] at hv
  | cons name names ih =>
    rcases List.mem_cons.mp hv with rfl | hv
    · exact ⟨rfl, rfl⟩
    · exact ih hv

theorem registers_declared :
    (declared names register startpc endpc).map (·.register) =
      List.range' register names.length := by
  induction names generalizing register with
  | nil => rfl
  | cons name names ih => simp [declared_cons, ih, List.range'_succ]

theorem getElem?_declared (i : Nat) :
    (declared names register startpc endpc)[i]? =
      names[i]?.map fun name => ⟨name, register + i, startpc, endpc⟩ := by
  induction names generalizing register i with
  | nil => simp [declared_nil]
  | cons name names ih =>
    cases i with
    | zero => simp [declared_cons]
    | succ i =>
      have hregister : register + 1 + i = register + (i + 1) := by omega
      simp [declared_cons, ih, hregister]

end declared

/-! ## Nesting -/

/-- The locals that a piece of code from `pc` to `fin` declares, in a block that ends at `endpc`. The
last `opens` that are in scope at its end stay in scope to the end of the block. -/
structure Nests (register pc fin endpc opens : Nat) (l : List Local) : Prop where
  starts : ∀ v ∈ l, pc ≤ v.startpc ∧ v.startpc ≤ fin
  ends : ∀ v ∈ l, v.endpc ≤ endpc
  sorted : l.Pairwise (·.startpc ≤ ·.startpc)
  stacked : ∀ q : Int,
    (active q l).map (·.register) = List.range' register (active q l).length
  opened : ∀ q : Int, fin ≤ q → q < endpc → (active q l).length = opens

namespace Nests

variable {register pc mid fin endpc opens opens' : Nat} {l l' : List Local}

theorem active_append (q : Int) (l l' : List Local) : active q (l ++ l') = active q l ++ active q l' :=
  List.filter_append ..

theorem active_before (h : Nests register pc fin endpc opens l) {q : Int} (hq : q < pc) :
    active q l = [] := by
  rw [active, List.filter_eq_nil_iff]
  intro v hv
  have := (h.starts v hv).1
  simp only [Local.activeAt, decide_eq_true_eq]
  omega

theorem active_after (h : Nests register pc fin endpc opens l) {q : Int} (hq : endpc ≤ q) :
    active q l = [] := by
  rw [active, List.filter_eq_nil_iff]
  intro v hv
  have := h.ends v hv
  simp only [Local.activeAt, decide_eq_true_eq]
  omega

theorem nil : Nests register pc fin endpc 0 [] where
  starts := by simp
  ends := by simp
  sorted := .nil
  stacked := fun _ => rfl
  opened := fun _ _ _ => rfl

theorem declared (names : List String) (register endpc : Nat) (hpc : pc ≤ mid) (hmid : mid ≤ fin) :
    Nests register pc fin endpc names.length (declared names register mid endpc) where
  starts := by
    intro v hv
    rw [(mem_declared hv).1]
    exact ⟨hpc, hmid⟩
  ends := fun v hv => (mem_declared hv).2.le
  sorted := by
    apply List.pairwise_of_forall_mem_list
    intro v hv w hw
    rw [(mem_declared hv).1, (mem_declared hw).1]
  stacked := by
    intro q
    by_cases hq : mid ≤ q ∧ q < endpc
    · have hall : active q (Locals.declared names register mid endpc) =
          Locals.declared names register mid endpc := by
        rw [active, List.filter_eq_self]
        intro v hv
        simp [Local.activeAt, mem_declared hv, hq]
      rw [hall, registers_declared, length_declared]
    · have hnone : active q (Locals.declared names register mid endpc) = [] := by
        rw [active, List.filter_eq_nil_iff]
        intro v hv
        simpa [Local.activeAt, mem_declared hv] using hq
      simp [hnone]
  opened := by
    intro q hfin hend
    have hall : active q (Locals.declared names register mid endpc) =
        Locals.declared names register mid endpc := by
      rw [active, List.filter_eq_self]
      intro v hv
      simp [Local.activeAt, mem_declared hv, hend]
      omega
    rw [hall, length_declared]

/-- Code that comes before. -/
theorem later (h : Nests register mid fin endpc opens l) (pc : Nat) (hpc : pc ≤ mid) :
    Nests register pc fin endpc opens l where
  starts := fun v hv => ⟨hpc.trans (h.starts v hv).1, (h.starts v hv).2⟩
  ends := h.ends
  sorted := h.sorted
  stacked := h.stacked
  opened := h.opened

theorem append (h : Nests register pc mid endpc opens l)
    (h' : Nests (register + opens) mid fin endpc opens' l') (hpc : pc ≤ mid) (hfin : mid ≤ fin) :
    Nests register pc fin endpc (opens + opens') (l ++ l') where
  starts := by
    intro v hv
    rcases List.mem_append.mp hv with hv | hv
    · have := h.starts v hv
      omega
    · have := h'.starts v hv
      omega
  ends := by
    intro v hv
    rcases List.mem_append.mp hv with hv | hv
    · exact h.ends v hv
    · exact h'.ends v hv
  sorted := by
    rw [List.pairwise_append]
    refine ⟨h.sorted, h'.sorted, fun v hv w hw => ?_⟩
    exact (h.starts v hv).2.trans (h'.starts w hw).1
  stacked := by
    intro q
    rw [active_append]
    by_cases hmid : q < mid
    · rw [h'.active_before hmid, List.append_nil]
      exact h.stacked q
    by_cases hend : q < endpc
    · rw [List.map_append, h.stacked q, h'.stacked q, List.length_append,
        h.opened q (by omega) hend, List.range'_append_1]
    · rw [h.active_after (by omega), h'.active_after (by omega)]
      rfl
  opened := by
    intro q hfinq hend
    rw [active_append, List.length_append, h.opened q (by omega) hend, h'.opened q hfinq hend]

/-- Code that comes after. -/
theorem longer (h : Nests register pc mid endpc opens l) (fin : Nat) (hfin : mid ≤ fin) :
    Nests register pc fin endpc opens l where
  starts := fun v hv => ⟨(h.starts v hv).1, (h.starts v hv).2.trans hfin⟩
  ends := h.ends
  sorted := h.sorted
  stacked := h.stacked
  opened := fun q hq => h.opened q (by omega)

/-- At the end of a block its locals go out of scope. -/
theorem block (h : Nests register pc mid mid opens l) (fin endpc : Nat) (hfin : mid ≤ fin)
    (hend : fin ≤ endpc) : Nests register pc fin endpc 0 l where
  starts := fun v hv => ⟨(h.starts v hv).1, (h.starts v hv).2.trans hfin⟩
  ends := fun v hv => (h.ends v hv).trans (hfin.trans hend)
  sorted := h.sorted
  stacked := h.stacked
  opened := by
    intro q hfinq _
    rw [h.active_after (by omega)]
    rfl

/-- The loop block of a `for` statement, around the block for its declared variables. -/
theorem forScope {isnum upval scope : Bool} {size : Nat} (control names : List String)
    (h : Nests (register + control.length + names.length) (pc + 1) (pc + 1 + size)
      (pc + 1 + size) opens l)
    (hend : pc + 1 + size + upval.toNat + scope.toNat + forloop isnum ≤ endpc) :
    Nests register pc (pc + 1 + size + upval.toNat + scope.toNat + forloop isnum) endpc 0
      (forScope control names isnum size upval scope l register pc) := by
  have hinner := h.block (pc + 1 + size + upval.toNat) (pc + 1 + size + upval.toNat)
    (by omega) le_rfl
  have hdeclared := (declared names (register + control.length) _ le_rfl le_rfl).append
    hinner le_rfl (by omega)
  have hbody := (hdeclared.block (pc + 1 + size + upval.toNat + scope.toNat + forloop isnum) _
    (by omega) le_rfl).later pc (Nat.le_succ pc)
  have hcontrol := (declared control register _ le_rfl le_rfl).append hbody le_rfl (by omega)
  exact hcontrol.block _ endpc le_rfl hend

end Nests

mutual

theorem Statement.nests (stat : Statement) (register pc endpc : Nat)
    (hend : pc + stat.size ≤ endpc) :
    Nests register pc (pc + stat.size) endpc stat.opens (stat.scope register pc endpc) := by
  cases stat with
  | exprstat code => exact .nil
  | dostat block upval =>
    rw [Statement.size] at hend ⊢
    exact (block.nests register pc _ le_rfl).block _ endpc (by omega) hend
  | ifstat cond block upval more =>
    rw [Statement.size] at hend ⊢
    have hthen := ((block.nests register (pc + cond) _ le_rfl).block
      (pc + cond + block.size + upval.toNat) endpc (by omega) (by omega)).later pc (by omega)
    have hmore := more.nests register (pc + cond + block.size + upval.toNat) endpc (by omega)
    have hsize : pc + (cond + block.size + upval.toNat + more.size) =
        pc + cond + block.size + upval.toNat + more.size := by omega
    rw [hsize]
    exact hthen.append hmore (by omega) (by omega)
  | whilestat cond block upval =>
    rw [Statement.size] at hend ⊢
    exact ((block.nests register (pc + cond) _ le_rfl).block _ endpc (by omega) hend).later pc
      (by omega)
  | fornum varname exps block upval scope =>
    rw [Statement.size] at hend ⊢
    have hsize : pc + (exps + 1 + block.size + upval.toNat + scope.toNat + forloop true) =
        pc + exps + 1 + block.size + upval.toNat + scope.toNat + forloop true := by omega
    rw [hsize] at hend ⊢
    have hblock := block.nests (register + 4) (pc + exps + 1) _ le_rfl
    exact (Nests.forScope ["(for index)", "(for limit)", "(for step)"] [varname] hblock
      hend).later pc (by omega)
  | forlist indexname names exps block upval scope =>
    rw [Statement.size] at hend ⊢
    have hsize : pc + (exps + 1 + block.size + upval.toNat + scope.toNat + forloop false) =
        pc + exps + 1 + block.size + upval.toNat + scope.toNat + forloop false := by omega
    have hregister : register + 3 + (names.length + 1) = register + (names.length + 4) := by omega
    rw [hsize] at hend ⊢
    have hblock := block.nests (register + (names.length + 4)) (pc + exps + 1) _ le_rfl
    rw [← hregister] at hblock
    have hfor := (Nests.forScope ["(for generator)", "(for state)", "(for control)"]
      (indexname :: names) hblock hend).later pc (by omega)
    rwa [hregister] at hfor
  | repeatstat block cond upval =>
    rw [Statement.size] at hend ⊢
    have hscope := (block.nests register pc (pc + block.size + cond + if upval then 2 else 0)
      (by omega)).longer (pc + block.size + cond + if upval then 2 else 0) (by omega)
    exact hscope.block _ endpc (by omega) hend
  | localstat name names exps =>
    exact .declared (name :: names) register endpc (Nat.le_add_right ..) le_rfl
  | localfunc name body => exact .declared [name] register endpc (Nat.le_add_right ..) le_rfl

theorem Chunk.nests (chunk : Chunk) (register pc endpc : Nat)
    (hend : pc + chunk.size ≤ endpc) :
    Nests register pc (pc + chunk.size) endpc chunk.opens (chunk.scope register pc endpc) := by
  cases chunk with
  | done => exact .nil
  | next stat rest =>
    rw [Chunk.size] at hend ⊢
    have hstat := stat.nests register pc endpc (by omega)
    have hrest := rest.nests (register + stat.opens) (pc + stat.size) endpc (by omega)
    rw [← Nat.add_assoc]
    exact hstat.append hrest (by omega) (by omega)

theorem Clauses.nests (clauses : Clauses) (register pc endpc : Nat)
    (hend : pc + clauses.size ≤ endpc) :
    Nests register pc (pc + clauses.size) endpc 0 (clauses.scope register pc) := by
  cases clauses with
  | done => exact .nil
  | elseblock block upval =>
    rw [Clauses.size] at hend ⊢
    exact ((block.nests register (pc + 1) _ le_rfl).block _ endpc (by omega) hend).later pc
      (by omega)
  | elseif cond block upval more =>
    rw [Clauses.size] at hend ⊢
    have hthen := ((block.nests register (pc + 1 + cond) _ le_rfl).block
      (pc + 1 + cond + block.size + upval.toNat) endpc (by omega) (by omega)).later pc (by omega)
    have hmore := more.nests register (pc + 1 + cond + block.size + upval.toNat) endpc (by omega)
    have hsize : pc + (1 + cond + block.size + upval.toNat + more.size) =
        pc + 1 + cond + block.size + upval.toNat + more.size := by omega
    rw [hsize]
    exact hthen.append hmore (by omega) (by omega)

end

end Luaxx.Parser.Locals
