import Luaxx.Code.Arith

/-!
# Compiled arithmetic computes what the expression means

One specification for each function of the code generator, for expressions without jumps: the
state it leaves, and that reading the expression after it gives what reading it before gave.
-/

namespace Luaxx.Code

open Result

variable {ν : Type}

/-- The state between two steps on an expression without jumps. The numbers among the constants
are in `S`. -/
structure Ready (S : List ν) (fs : FuncState ν) : Prop where
  jpc : fs.jpc = NO_JUMP
  consistent : Consistent fs
  numbers : ∀ r i, (TValue.number r, i) ∈ fs.h → r ∈ S
  limit : fs.k.length ≤ MAXARG_Bx
  nactvar : fs.nactvar ≤ fs.freereg
  freereg : fs.freereg ≤ fs.maxstacksize
  maxstacksize : fs.maxstacksize ≤ MAXSTACK
  loadnil : ∀ i ∈ fs.code, GET_OPCODE i = some .LOADNIL → GETARG_A i ≤ GETARG_B i

/-- What every step keeps. -/
structure Step (S : List ν) (fs fs' : FuncState ν) : Prop where
  ready : Ready S fs'
  nactvar : fs'.nactvar = fs.nactvar
  k : fs.k <+: fs'.k

theorem Step.refl {S : List ν} {fs : FuncState ν} (h : Ready S fs) : Step S fs fs :=
  ⟨h, rfl, List.prefix_rfl⟩

theorem Step.trans {S : List ν} {fs1 fs2 fs3 : FuncState ν} (h : Step S fs1 fs2)
    (h' : Step S fs2 fs3) : Step S fs1 fs3 :=
  ⟨h'.ready, h'.nactvar.trans h.nactvar, h.k.trans h'.k⟩

section Functions

variable {S : List ν} {fs fs' : FuncState ν}

theorem dischargejpc_of_no_jump (h : fs.jpc = NO_JUMP) : dischargejpc fs = .ok fs := by
  unfold dischargejpc fuel
  rw [patchlistaux, if_pos h, ok_bind, ← h]

/-- With no pending jumps, a word is put at the end of the code. -/
theorem luaK_code_ok {i : Instruction} {pc : Nat} (hj : fs.jpc = NO_JUMP)
    (h : luaK_code fs i = .ok (pc, fs')) :
    pc = fs.code.length ∧ fs' = { fs with code := fs.code ++ [i] } := by
  rw [luaK_code, dischargejpc_of_no_jump hj, ok_bind] at h
  obtain ⟨-, h⟩ := ite_error_ok.mp h
  cases h
  exact ⟨rfl, rfl⟩

theorem Ready.append (hr : Ready S fs) {i : Instruction}
    (hi : GET_OPCODE i = some .LOADNIL → GETARG_A i ≤ GETARG_B i) :
    Ready S { fs with code := fs.code ++ [i] } := by
  refine { hr with loadnil := fun j hj => ?_ }
  rcases List.mem_append.mp hj with hj | hj
  · exact hr.loadnil j hj
  · rw [List.mem_singleton.mp hj]
    exact hi

theorem Ready.set (hr : Ready S fs) {pc : Int} {i : Instruction}
    (hi : GET_OPCODE i = some .LOADNIL → GETARG_A i ≤ GETARG_B i) : Ready S (fs.setCode pc i) := by
  refine { hr with loadnil := fun j hj => ?_ }
  rcases List.mem_or_eq_of_mem_set hj with hj | rfl
  · exact hr.loadnil j hj
  · exact hi

/-- The last word, alone. -/
theorem exists_code_last (fs : FuncState ν) {p : Nat} (h : p + 1 = fs.code.length) :
    ∃ c, fs.code = c ++ [fs.codeAt p] ∧ ∀ i, (fs.setCode p i).code = c ++ [i] := by
  have hne : fs.code ≠ [] := List.ne_nil_of_length_eq_add_one h.symm
  obtain ⟨c, i, hc⟩ : ∃ c i, fs.code = c ++ [i] :=
    ⟨_, _, (List.dropLast_append_getLast hne).symm⟩
  obtain rfl : p = c.length := by
    rw [hc, List.length_append] at h
    simpa using h
  refine ⟨c, ?_, fun j => ?_⟩
  · simp [FuncState.codeAt, hc]
  · simp [FuncState.setCode, hc]

theorem Ready.freereg_lt (hr : Ready S fs) : fs.freereg < 256 :=
  lt_of_le_of_lt (hr.freereg.trans hr.maxstacksize) (by decide)

theorem luaK_reserveregs_spec (hr : Ready S fs) (h : luaK_reserveregs fs 1 = .ok fs') :
    ∃ m, fs' = { fs with maxstacksize := m, freereg := fs.freereg + 1 } ∧ Ready S fs' := by
  obtain ⟨fs1, h1, h⟩ := bind_ok.mp h
  cases h
  have hn : fs.nactvar ≤ fs.freereg + 1 := Nat.le_succ_of_le hr.nactvar
  simp only [luaK_checkstack] at h1
  split_ifs at h1 with hgt hge
  · cases h1
    exact ⟨_, rfl, { hr with nactvar := hn, freereg := le_rfl, maxstacksize := (not_le.mp hge).le }⟩
  · cases h1
    exact ⟨_, rfl, { hr with nactvar := hn, freereg := not_lt.mp hgt }⟩

/-- Giving up to the registers above `r`. -/
theorem Ready.free (hr : Ready S fs) {r : Nat} (h : fs.nactvar ≤ r) (h' : r ≤ fs.freereg) :
    Ready S { fs with freereg := r } :=
  { hr with nactvar := h, freereg := h'.trans hr.freereg }

end Functions

variable [LuaNumber ν]

/-! ## Reading an expression -/

/-- Nothing has to be coded to read it. -/
def settled (K : List (TValue ν)) (r : Regs ν) : ExpKind ν → TValue ν
  | .VTRUE => .boolean true
  | .VFALSE => .boolean false
  | .VK i => K.getD i .nil
  | .VKNUM n => .number n
  | .VLOCAL i | .VNONRELOC i => r i
  | _ => .nil

section Reading

variable (env : Env ν) (K : List (TValue ν)) (r0 : Regs ν)

/-- The registers after the code so far. -/
def out (fs : FuncState ν) : Except String (Regs ν) := run env K r0 fs.code

/-- The registers and the value, when the expression is put in `F` if it has to be. -/
def reading (F : Nat) (fs : FuncState ν) (e : Expdesc ν) : Except String (Regs ν × TValue ν) :=
  match e.k with
  | .VGLOBAL i => do
    let r ← out env K r0 fs
    let v ← env.getglobal (K.getD i .nil)
    .ok (r, v)
  | .VRELOCABLE pc => do
    let r ← out env K r0 (fs.setCode pc (SETARG_A (fs.codeAt pc) F))
    .ok (r, r F)
  | k => do
    let r ← out env K r0 fs
    .ok (r, settled K r k)

end Reading

/-- The registers below `F` and the value are the same. -/
def Same (F : Nat) (p q : Regs ν × TValue ν) : Prop := (∀ i < F, p.1 i = q.1 i) ∧ p.2 = q.2

/-- The registers that the source takes to be nil are. -/
def Clean (fs : FuncState ν) (r0 : Regs ν) : Prop := ∀ i, fs.nactvar ≤ i → r0 i = .nil

/-- What an expression without jumps can be, when the registers from `F` on are free for it. -/
def Fits (F : Nat) (fs : FuncState ν) : ExpKind ν → Prop
  | .VNIL | .VTRUE | .VFALSE | .VKNUM _ => True
  | .VK i | .VGLOBAL i => i < fs.k.length
  | .VLOCAL r => r < fs.nactvar
  | .VRELOCABLE pc => pc + 1 = fs.code.length ∧ GET_OPCODE (fs.codeAt pc) ≠ some .LOADNIL
  | .VNONRELOC r => r < fs.nactvar ∨ r = F
  | _ => False

/-- The number of temporary registers that an expression holds. -/
def temps (fs : FuncState ν) : ExpKind ν → Nat
  | .VNONRELOC r => if fs.nactvar ≤ r then 1 else 0
  | _ => 0

structure Placed (F : Nat) (fs : FuncState ν) (e : Expdesc ν) : Prop where
  t : e.t = NO_JUMP
  f : e.f = NO_JUMP
  fits : Fits F fs e.k
  nactvar : fs.nactvar ≤ F
  freereg : fs.freereg = F + temps fs e.k

/-- The step from `fs`, `e` to `fs'`, `e'` is no more than a step of the code generator. -/
structure Keeps (S : List ν) (F : Nat) (fs : FuncState ν) (e : Expdesc ν) (fs' : FuncState ν)
    (e' : Expdesc ν) : Prop where
  step : Step S fs fs'
  placed : Placed F fs' e'
  reads : ∀ env K r0, fs'.k <+: K → Clean fs r0 →
    Agree (Same F) (reading env K r0 F fs' e') (reading env K r0 F fs e)

omit [LuaNumber ν] in
theorem Same.refl {F : Nat} (p : Regs ν × TValue ν) : Same F p p := ⟨fun _ _ => rfl, rfl⟩

omit [LuaNumber ν] in
theorem Same.trans {F : Nat} {p q r : Regs ν × TValue ν} (h : Same F p q) (h' : Same F q r) :
    Same F p r :=
  ⟨fun i hi => (h.1 i hi).trans (h'.1 i hi), h.2.trans h'.2⟩

theorem Keeps.refl {S : List ν} {F : Nat} {fs : FuncState ν} {e : Expdesc ν} (hr : Ready S fs)
    (hp : Placed F fs e) : Keeps S F fs e fs e :=
  ⟨.refl hr, hp, fun _ _ _ _ _ => .refl Same.refl _⟩

theorem Keeps.trans {S : List ν} {F : Nat} {fs1 fs2 fs3 : FuncState ν} {e1 e2 e3 : Expdesc ν}
    (h : Keeps S F fs1 e1 fs2 e2) (h' : Keeps S F fs2 e2 fs3 e3) : Keeps S F fs1 e1 fs3 e3 where
  step := h.step.trans h'.step
  placed := h'.placed
  reads env K r0 hK hc :=
    (h'.reads env K r0 hK fun i hi => hc i (h.step.nactvar ▸ hi)).trans
      (h.reads env K r0 (h'.step.k.trans hK) hc) fun _ _ _ => Same.trans

/-! ## Emitting code -/

section Emit

variable {S : List ν} {fs fs' : FuncState ν} {F : Nat}

/-- A word at the end of the code is executed last. -/
theorem luaK_code_spec {i : Instruction} {pc : Nat} (hr : Ready S fs)
    (hi : GET_OPCODE i = some .LOADNIL → GETARG_A i ≤ GETARG_B i)
    (h : luaK_code fs i = .ok (pc, fs')) :
    Step S fs fs' ∧ pc = fs.code.length ∧ fs' = { fs with code := fs.code ++ [i] } ∧
      ∀ env K r0, out env K r0 fs' = out env K r0 fs >>= fun r => execute env K r i := by
  obtain ⟨rfl, rfl⟩ := luaK_code_ok hr.jpc h
  exact ⟨⟨hr.append hi, rfl, List.prefix_rfl⟩, rfl, rfl,
    fun env K r0 => run_concat env K r0 fs.code i⟩

/-- The instruction of a relocatable expression is the last one, and gets its register last. -/
theorem reading_relocable {i : Instruction} {t f : Int} (env : Env ν) (K : List (TValue ν))
    (r0 : Regs ν) :
    reading env K r0 F { fs with code := fs.code ++ [i] } ⟨.VRELOCABLE fs.code.length, t, f⟩ =
      out env K r0 fs >>= fun r => execute env K r (SETARG_A i F) >>= fun r' => .ok (r', r' F) := by
  have hat : ({ fs with code := fs.code ++ [i] } : FuncState ν).codeAt fs.code.length = i := by
    simp [FuncState.codeAt]
  have hset : (({ fs with code := fs.code ++ [i] } : FuncState ν).setCode fs.code.length
      (SETARG_A i F)).code = fs.code ++ [SETARG_A i F] := by
    simp [FuncState.setCode]
  simp only [reading, hat, out, hset, run_concat, bind_assoc]

/-- `luaK_nil` for one register, merged or not, sets it to nil. -/
theorem luaK_nil_spec {reg : Nat} (hr : Ready S fs) (hreg : reg < 256) (hn : fs.nactvar ≤ reg)
    (h : luaK_nil fs reg 1 = .ok fs') :
    Step S fs fs' ∧ fs'.freereg = fs.freereg ∧ ∀ env K r0, Clean fs r0 →
      out env K r0 fs' = out env K r0 fs >>= fun r => .ok (setReg r reg .nil) := by
  have separate : ∀ pc, luaK_codeABC fs .LOADNIL reg (reg + 1 - 1) 0 = .ok (pc, fs') →
      Step S fs fs' ∧ fs'.freereg = fs.freereg ∧ ∀ env K r0, Clean fs r0 →
        out env K r0 fs' = out env K r0 fs >>= fun r => .ok (setReg r reg .nil) := by
    intro pc h
    rw [luaK_codeABC, Nat.add_sub_cancel] at h
    have hb : reg < 512 := by omega
    have h0 : 0 < 512 := by decide
    have hop := GET_OPCODE_CREATE_ABC (o := .LOADNIL) hreg hb h0
    have hle : GETARG_A (CREATE_ABC .LOADNIL reg reg 0) ≤ GETARG_B (CREATE_ABC .LOADNIL reg reg 0) := by
      rw [GETARG_A_CREATE_ABC hreg hb h0, GETARG_B_CREATE_ABC hreg hb h0]
    obtain ⟨step, -, rfl, hout⟩ := luaK_code_spec hr (fun _ => hle) h
    refine ⟨step, rfl, fun env K r0 _ => ?_⟩
    rw [hout]
    congr 1
    funext r
    rw [execute_of_LOADNIL hop hle, GETARG_A_CREATE_ABC hreg hb h0, GETARG_B_CREATE_ABC hreg hb h0]
    congr 1
    funext i
    have : (reg ≤ i ∧ i ≤ reg) ↔ i = reg := by omega
    simp only [this, setReg]
  have again : ∀ (x : Gen (Nat × FuncState ν)), (x >>= fun p => .ok p.2) = .ok fs' →
      ∃ pc, x = .ok (pc, fs') := by
    intro x hx
    obtain ⟨⟨pc, fs1⟩, hx1, hfs⟩ := bind_ok.mp hx
    cases hfs
    exact ⟨pc, hx1⟩
  have hlast : fs.pc ≠ 0 → ∃ c, fs.code = c ++ [fs.codeAt (fs.pc - 1)] ∧
      ∀ i, (fs.setCode (fs.pc - 1) i).code = c ++ [i] := by
    intro hpc
    unfold FuncState.pc at hpc ⊢
    have hp : fs.code.length - 1 + 1 = fs.code.length := by omega
    have heq : (fs.code.length : Int) - 1 = (fs.code.length - 1 : Nat) := by omega
    rw [heq]
    exact exists_code_last fs hp
  simp only [luaK_nil] at h
  split_ifs at h with htarget hpc hop hrange hgt
  · cases h
    refine ⟨.refl hr, rfl, fun env K r0 hclean => ?_⟩
    have hcode : fs.code = [] := List.length_eq_zero_iff.mp (Int.ofNat_eq_zero.mp hpc)
    have : setReg r0 reg .nil = r0 := by
      funext i
      unfold setReg
      split_ifs with hi
      · rw [hi, hclean reg hn]
      · rfl
    rw [out, run, hcode]
    exact congrArg Except.ok this.symm
  · cases h
    obtain ⟨c, hc, hset⟩ := hlast hpc
    have hop' := GET_OPCODE_eq_some.mpr hop
    have hle := hr.loadnil _ (by rw [hc]; simp) hop'
    refine ⟨⟨hr.set fun _ => ?_, rfl, List.prefix_rfl⟩, rfl, fun env K r0 _ => ?_⟩
    · rw [GETARG_A_SETARG_B, GETARG_B_SETARG_B (by omega)]
      omega
    · rw [out, out, hset, hc, run_concat, run_concat, bind_assoc]
      congr 1
      funext r
      exact execute_LOADNIL_extended hop' hle (by omega) (by omega)
  · cases h
    obtain ⟨c, hc, -⟩ := hlast hpc
    refine ⟨.refl hr, rfl, fun env K r0 _ => ?_⟩
    rw [out, hc, run_concat, bind_assoc]
    congr 1
    funext r
    exact execute_LOADNIL_covers (GET_OPCODE_eq_some.mpr hop) hrange.1 (by omega)
  · exact (again _ h).elim separate
  · exact (again _ h).elim separate
  · exact (again _ h).elim separate

/-- No two different numbers of a list are `==`. -/
def Separate (S : List ν) : Prop := ∀ a ∈ S, ∀ b ∈ S, LuaNumber.luai_numeq a b = true → a = b

theorem addConstant_step {r : Request ν} {i : Nat} (hr : Ready S fs) (hS : Separate S)
    (hmem : ∀ n, r = .number n → n ∈ S) (h : addConstant fs r = .ok (i, fs')) :
    Step S fs fs' ∧ fs' = { fs with k := fs'.k, h := fs'.h } ∧ i < fs'.k.length ∧
      i ≤ fs.k.length ∧ ∀ K, fs'.k <+: K → K.getD i .nil = r.value := by
  obtain ⟨hc, entered⟩ := addConstant_spec hr.consistent h
  have numbers : ∀ n j, (TValue.number n, j) ∈ fs'.h → n ∈ S := by
    intro n j hn
    rcases entered.mem _ hn with hn | hn
    · exact hr.numbers n j hn
    · cases r <;> simp only [Request.key, Request.value] at hn <;> cases hn
      exact hmem _ rfl
  have hhp : fs'.hp = fs.hp := by rw [entered.frame]
  obtain ⟨s, hs, hk, hsame⟩ := hc.lookup (hhp ▸ entered.found)
  have hvalue : fs'.k[i]? = some r.value := by
    rcases hsame with rfl | hcollide
    · exact hk
    · cases s <;> cases r <;> simp only [Request.Collide] at hcollide
      exact absurd (hS _ (numbers _ i hs) _ (hmem _ rfl) hcollide.1) hcollide.2
  have ready : Ready S fs' := by
    rw [entered.frame]
    exact { hr with
      consistent := by rw [← entered.frame]; exact hc
      numbers := numbers
      limit := entered.limit hr.limit }
  refine ⟨⟨ready, by rw [entered.frame], entered.k⟩, entered.frame,
    (List.getElem?_eq_some_iff.mp hvalue).1, entered.index, fun K hK => ?_⟩
  obtain ⟨hlt, heq⟩ := List.getElem?_eq_some_iff.mp hvalue
  rw [List.getD_eq_getElem?_getD, List.prefix_iff_getElem?.mp hK i hlt, heq, Option.getD_some]

/-- The local and global variables are gone. -/
def Discharged : ExpKind ν → Prop
  | .VLOCAL _ | .VGLOBAL _ => False
  | _ => True

omit [LuaNumber ν] in
theorem Placed.le_freereg {e : Expdesc ν} (h : Placed F fs e) : F ≤ fs.freereg := by
  rw [h.freereg]
  exact Nat.le_add_right _ _

omit [LuaNumber ν] in
theorem Placed.numeral?_eq {e : Expdesc ν} {n : ν} (h : Placed F fs e) (hk : e.k = .VKNUM n) :
    e.numeral? = some n := by
  obtain ⟨k, t, f⟩ := e
  obtain rfl : k = .VKNUM n := hk
  exact if_pos ⟨h.t, h.f⟩

omit [LuaNumber ν] in
theorem luaK_dischargevars_of_discharged {e : Expdesc ν} (fits : Fits F fs e.k)
    (hd : Discharged e.k) : luaK_dischargevars fs e = .ok (e, fs) := by
  unfold luaK_dischargevars
  cases hk : e.k <;> rw [hk] at fits hd <;> first | rfl | exact fits.elim | exact hd.elim

theorem luaK_dischargevars_spec {e e' : Expdesc ν} (hr : Ready S fs) (hp : Placed F fs e)
    (h : luaK_dischargevars fs e = .ok (e', fs')) :
    Keeps S F fs e fs' e' ∧ Discharged e'.k ∧ e'.numeral? = e.numeral? := by
  have hF : F < 256 := lt_of_le_of_lt hp.le_freereg hr.freereg_lt
  by_cases hd : Discharged e.k
  · rw [luaK_dischargevars_of_discharged hp.fits hd] at h
    cases h
    exact ⟨.refl hr hp, hd, rfl⟩
  obtain ⟨k, t, f⟩ := e
  cases k with
  | VLOCAL info =>
    cases h
    have hlt : info < fs.nactvar := hp.fits
    refine ⟨⟨.refl hr, ⟨hp.t, hp.f, .inl hlt, hp.nactvar, ?_⟩, fun env K r0 _ _ => ?_⟩, trivial, rfl⟩
    · rw [hp.freereg]
      simp [temps, Nat.not_le.mpr hlt]
    · exact .refl Same.refl _
  | VGLOBAL info =>
    obtain ⟨⟨pc, fs1⟩, h1, h⟩ := bind_ok.mp h
    cases h
    have hinfo : info < 2 ^ 18 := lt_of_lt_of_le hp.fits (hr.limit.trans (by decide))
    have hop := GET_OPCODE_CREATE_ABx (o := .GETGLOBAL) (a := 0) (by decide) hinfo
    have hne : GET_OPCODE (CREATE_ABx .GETGLOBAL 0 info) ≠ some .LOADNIL := by rw [hop]; decide
    obtain ⟨step, rfl, rfl, -⟩ := luaK_code_spec hr (absurd · hne) h1
    refine ⟨⟨step, ⟨hp.t, hp.f, ⟨by simp, ?_⟩, hp.nactvar, hp.freereg⟩, ?_⟩, trivial, rfl⟩
    · simpa [FuncState.codeAt] using hne
    · intro env K r0 _ _
      rw [reading_relocable]
      refine Agree.bind (R := Eq) (.refl (fun _ => rfl) _) fun r _ hr => ?_
      subst hr
      rw [execute_GETGLOBAL hF hinfo, bind_assoc]
      refine Agree.bind (R := Eq) (.refl (fun _ => rfl) _) fun v _ hv => ?_
      subst hv
      exact ⟨fun i hi => setReg_of_ne (Nat.ne_of_lt hi), setReg_self _ _ _⟩
  | _ => exact absurd trivial hd

/-! ## Putting an expression in a register -/

/-- The registers below `F` are the same, and `F` has the value. -/
def Loaded (F : Nat) (r : Regs ν) (p : Regs ν × TValue ν) : Prop :=
  (∀ i < F, r i = p.1 i) ∧ r F = p.2

theorem agree_loaded {env : Env ν} {K : List (TValue ν)} {r0 : Regs ν} {v : Regs ν → TValue ν}
    (h : out env K r0 fs' = out env K r0 fs >>= fun r => .ok (setReg r F (v r))) :
    Agree (Loaded F) (out env K r0 fs') (out env K r0 fs >>= fun r => .ok (r, v r)) := by
  rw [h]
  refine Agree.bind (R := Eq) (.refl (fun _ => rfl) _) fun r _ hr => ?_
  subst hr
  exact ⟨fun i hi => setReg_of_ne (Nat.ne_of_lt hi), setReg_self _ _ _⟩

omit [LuaNumber ν] in
theorem agree_bind_right {x : Except String (Regs ν)} {g : Regs ν → Regs ν × TValue ν}
    (h : ∀ r, Loaded F r (g r)) : Agree (Loaded F) x (x >>= fun r => .ok (g r)) := by
  cases x with
  | ok r => exact h r
  | error e => rfl

theorem discharge2reg_spec {e e' : Expdesc ν} (hr : Ready S fs) (hS : Separate S)
    (hmem : ∀ n, e.k = .VKNUM n → n ∈ S) (fits : Fits F fs e.k) (hd : Discharged e.k)
    (hF : F < 256) (hn : fs.nactvar ≤ F) (h : discharge2reg fs e F = .ok (e', fs')) :
    e' = { e with k := .VNONRELOC F } ∧ Step S fs fs' ∧ fs'.freereg = fs.freereg ∧
      ∀ env K r0, fs'.k <+: K → Clean fs r0 →
        Agree (Loaded F) (out env K r0 fs') (reading env K r0 F fs e) := by
  rw [discharge2reg, luaK_dischargevars_of_discharged fits hd, ok_bind] at h
  obtain ⟨k, t, f⟩ := e
  have h0 : 0 < 512 := by decide
  have h1 : 1 < 512 := by decide
  cases k with
  | VNIL =>
    obtain ⟨fs1, h1, h⟩ := bind_ok.mp h
    cases h
    obtain ⟨step, hfree, hout⟩ := luaK_nil_spec hr hF hn h1
    exact ⟨rfl, step, hfree, fun env K r0 _ hclean => agree_loaded (hout env K r0 hclean)⟩
  | VFALSE =>
    obtain ⟨⟨pc, fs1⟩, h2, h⟩ := bind_ok.mp h
    cases h
    have hop := GET_OPCODE_CREATE_ABC (o := .LOADBOOL) hF h0 h0
    obtain ⟨step, -, rfl, hout⟩ := luaK_code_spec hr (by rw [hop]; nofun) h2
    refine ⟨rfl, step, rfl, fun env K r0 _ _ => agree_loaded ?_⟩
    simp only [hout, execute_LOADBOOL hF h0]
    rfl
  | VTRUE =>
    obtain ⟨⟨pc, fs1⟩, h2, h⟩ := bind_ok.mp h
    cases h
    have hop := GET_OPCODE_CREATE_ABC (o := .LOADBOOL) hF h1 h0
    obtain ⟨step, -, rfl, hout⟩ := luaK_code_spec hr (by rw [hop]; nofun) h2
    refine ⟨rfl, step, rfl, fun env K r0 _ _ => agree_loaded ?_⟩
    simp only [hout, execute_LOADBOOL hF h1]
    rfl
  | VK info =>
    obtain ⟨⟨pc, fs1⟩, h2, h⟩ := bind_ok.mp h
    cases h
    have hinfo : info < 2 ^ 18 := lt_of_lt_of_le fits (hr.limit.trans (by decide))
    have hop := GET_OPCODE_CREATE_ABx (o := .LOADK) hF hinfo
    obtain ⟨step, -, rfl, hout⟩ := luaK_code_spec hr (by rw [hop]; nofun) h2
    refine ⟨rfl, step, rfl, fun env K r0 _ _ => agree_loaded ?_⟩
    simp only [hout, execute_LOADK hF hinfo]
    rfl
  | VKNUM nval =>
    obtain ⟨⟨info, fs1⟩, h2, h⟩ := bind_ok.mp h
    obtain ⟨⟨pc, fs2⟩, h3, h⟩ := bind_ok.mp h
    cases h
    obtain ⟨step, hframe, hlt, -, hK⟩ := addConstant_step (r := .number nval) hr hS
      (fun n hn => by cases hn; exact hmem _ rfl) h2
    have hinfo : info < 2 ^ 18 := lt_of_lt_of_le hlt (step.ready.limit.trans (by decide))
    have hop := GET_OPCODE_CREATE_ABx (o := .LOADK) hF hinfo
    obtain ⟨step', -, rfl, hout⟩ := luaK_code_spec step.ready (by rw [hop]; nofun) h3
    have hcode : fs1.code = fs.code := by rw [hframe]
    have hfree : fs1.freereg = fs.freereg := by rw [hframe]
    refine ⟨rfl, step.trans step', hfree, fun env K r0 hK' _ => agree_loaded ?_⟩
    have hsame : out env K r0 fs1 = out env K r0 fs := by rw [out, hcode, out]
    simp only [hout, execute_LOADK hF hinfo, hK K hK', hsame]
    rfl
  | VRELOCABLE info =>
    cases h
    refine ⟨rfl, ⟨hr.set fun hop => ?_, rfl, List.prefix_rfl⟩, rfl, fun env K r0 _ _ => ?_⟩
    · rw [GET_OPCODE_SETARG_A] at hop
      exact absurd hop fits.2
    · refine agree_bind_right fun r => ⟨fun _ _ => rfl, rfl⟩
  | VNONRELOC info =>
    dsimp only at h
    split_ifs at h with hne
    · obtain ⟨⟨pc, fs1⟩, h2, h⟩ := bind_ok.mp h
      cases h
      have hinfo : info < 512 := by
        have : info < fs.nactvar := fits.resolve_right (Ne.symm hne)
        omega
      have hop := GET_OPCODE_CREATE_ABC (o := .MOVE) hF hinfo h0
      obtain ⟨step, -, rfl, hout⟩ := luaK_code_spec hr (by rw [hop]; nofun) h2
      refine ⟨rfl, step, rfl, fun env K r0 _ _ => agree_loaded ?_⟩
      simp only [hout, execute_MOVE hF hinfo]
      rfl
    · cases h
      obtain rfl : F = info := not_ne_iff.mp hne
      exact ⟨rfl, .refl hr, rfl, fun env K r0 _ _ => agree_bind_right fun r => ⟨fun _ _ => rfl, rfl⟩⟩
  | VLOCAL info => exact hd.elim
  | VGLOBAL info => exact hd.elim
  | _ => exact fits.elim

omit [LuaNumber ν] in
/-- The temporary register of an expression is given up. -/
theorem freeexp_eq {e : Expdesc ν} (h : ∀ r, e.k = .VNONRELOC r → r < 256) :
    freeexp fs e = { fs with freereg := fs.freereg - temps fs e.k } := by
  unfold freeexp
  cases hk : e.k
  case VNONRELOC r =>
    have hK : ISK r = false := by
      have := h r hk
      unfold ISK BITRK
      rw [Nat.div_eq_of_lt (by omega)]
      rfl
    by_cases hr : fs.nactvar ≤ r <;> simp [freereg, hK, hr, temps]
  all_goals rfl

omit [LuaNumber ν] in
theorem Placed.reg_lt {e : Expdesc ν} (hp : Placed F fs e) (hF : F < 256) {r : Nat}
    (hk : e.k = .VNONRELOC r) : r < 256 := by
  have fits := hp.fits
  rw [hk] at fits
  have := hp.nactvar
  rcases fits with h | h <;> omega

omit [LuaNumber ν] in
/-- Without the temporary register, `F` is the first free one. -/
theorem Placed.freeexp_eq {e : Expdesc ν} (hp : Placed F fs e) (hF : F < 256) :
    freeexp fs e = { fs with freereg := F } := by
  rw [Code.freeexp_eq fun r => hp.reg_lt hF, hp.freereg, Nat.add_sub_cancel]

theorem exp2reg_of_no_jumps {e e1 : Expdesc ν} {fs1 : FuncState ν} {reg : Nat}
    (h : discharge2reg fs e reg = .ok (e1, fs1)) (hk : e1.k = .VNONRELOC reg)
    (hj : e1.t = e1.f) : exp2reg fs e reg = .ok (init_exp (.VNONRELOC reg), fs1) := by
  obtain ⟨k, t, f⟩ := e1
  obtain rfl : k = .VNONRELOC reg := hk
  obtain rfl : t = f := hj
  rw [exp2reg, h]
  simp [Expdesc.hasjumps]

theorem luaK_exp2nextreg_spec {e e' : Expdesc ν} (hr : Ready S fs) (hS : Separate S)
    (hmem : ∀ n, e.numeral? = some n → n ∈ S) (hp : Placed F fs e)
    (h : luaK_exp2nextreg fs e = .ok (e', fs')) :
    Keeps S F fs e fs' e' ∧ e' = init_exp (.VNONRELOC F) ∧ fs'.freereg = F + 1 := by
  have hF : F < 256 := lt_of_le_of_lt hp.le_freereg hr.freereg_lt
  obtain ⟨⟨e1, fs1⟩, h1, h⟩ := bind_ok.mp h
  obtain ⟨fs2, h2, h⟩ := bind_ok.mp h
  obtain ⟨keeps, hd, hnum⟩ := luaK_dischargevars_spec hr hp h1
  have hp1 := keeps.placed
  have hr1 := keeps.step.ready
  rw [hp1.freeexp_eq hF] at h2
  obtain ⟨m, rfl, hr2⟩ := luaK_reserveregs_spec (hr1.free hp1.nactvar hp1.le_freereg) h2
  obtain ⟨⟨e2, fs3⟩, h3, -⟩ := bind_ok.mp h
  have hmem1 : ∀ n, e1.k = .VKNUM n → n ∈ S := by
    intro n hk
    exact hmem n (hnum ▸ hp1.numeral?_eq hk)
  obtain ⟨he2, step, hfree, hout⟩ := discharge2reg_spec hr2 hS hmem1 hp1.fits hd hF hp1.nactvar h3
  have hj : e2.t = e2.f := by rw [he2, hp1.t, hp1.f]
  have hk2 : e2.k = .VNONRELOC F := by rw [he2]
  rw [exp2reg_of_no_jumps h3 hk2 hj] at h
  cases h
  have hn : fs'.nactvar ≤ F := step.nactvar.trans_le hp1.nactvar
  refine ⟨keeps.trans ⟨⟨step.ready, step.nactvar, step.k⟩, ⟨rfl, rfl, .inr rfl, hn, ?_⟩, ?_⟩,
    rfl, hfree⟩
  · rw [hfree]
    simp [temps, init_exp, hn]
  · intro env K r0 hK hclean
    exact agree_bind_ok_left.mpr (hout env K r0 hK hclean)

theorem luaK_exp2anyreg_spec {e e' : Expdesc ν} {o : Nat} (hr : Ready S fs) (hS : Separate S)
    (hmem : ∀ n, e.numeral? = some n → n ∈ S) (hp : Placed F fs e)
    (h : luaK_exp2anyreg fs e = .ok (o, e', fs')) :
    Keeps S F fs e fs' e' ∧ e'.k = .VNONRELOC o := by
  obtain ⟨⟨e1, fs1⟩, h1, h⟩ := bind_ok.mp h
  obtain ⟨keeps, hd, hnum⟩ := luaK_dischargevars_spec hr hp h1
  have hp1 := keeps.placed
  have next : (luaK_exp2nextreg fs1 e1 >>= fun p => .ok (regOf p.1, p.1, p.2)) =
      .ok (o, e', fs') → Keeps S F fs e fs' e' ∧ e'.k = .VNONRELOC o := by
    intro h
    obtain ⟨⟨e2, fs2⟩, h2, h⟩ := bind_ok.mp h
    cases h
    obtain ⟨keeps', rfl, -⟩ :=
      luaK_exp2nextreg_spec keeps.step.ready hS (fun n hn => hmem n (hnum ▸ hn)) hp1 h2
    exact ⟨keeps.trans keeps', rfl⟩
  have hjumps : e1.hasjumps = false := by simp [Expdesc.hasjumps, hp1.t, hp1.f]
  cases hk : e1.k with
  | VNONRELOC info =>
    simp only [hk, hjumps] at h
    cases h
    exact ⟨keeps, hk⟩
  | _ =>
    simp only [hk] at h
    exact next h

/-- `o` is the `RK` argument for an expression. -/
def Operand (o : Nat) (k : ExpKind ν) : Prop :=
  k = .VNONRELOC o ∨ ∃ i ≤ MAXINDEXRK, k = .VK i ∧ o = RKASK i

theorem luaK_exp2RK_spec {e e' : Expdesc ν} {o : Nat} (hr : Ready S fs) (hS : Separate S)
    (hmem : ∀ n, e.numeral? = some n → n ∈ S) (hp : Placed F fs e)
    (h : luaK_exp2RK fs e = .ok (o, e', fs')) :
    Keeps S F fs e fs' e' ∧ Operand o e'.k := by
  obtain ⟨⟨e1, fs1⟩, h1, h⟩ := bind_ok.mp h
  have hjumps : e.hasjumps = false := by simp [Expdesc.hasjumps, hp.t, hp.f]
  rw [luaK_exp2val, hjumps] at h1
  obtain ⟨keeps, hd, hnum⟩ := luaK_dischargevars_spec hr hp h1
  have hp1 := keeps.placed
  have anyreg : luaK_exp2anyreg fs1 e1 = .ok (o, e', fs') →
      Keeps S F fs e fs' e' ∧ Operand o e'.k := by
    intro h
    obtain ⟨keeps', hk⟩ :=
      luaK_exp2anyreg_spec keeps.step.ready hS (fun n hn => hmem n (hnum ▸ hn)) hp1 h
    exact ⟨keeps.trans keeps', .inl hk⟩
  have constant : ∀ r : Request ν, (∀ n, r = .number n → n ∈ S) →
      (∀ K regs, settled K regs e1.k = r.value) → temps fs1 e1.k = 0 →
      (∀ env K r0, reading env K r0 F fs1 e1 =
        out env K r0 fs1 >>= fun regs => .ok (regs, settled K regs e1.k)) →
      (if fs1.k.length ≤ MAXINDEXRK then
        addConstant fs1 r >>= fun p => .ok (RKASK p.1, { e1 with k := .VK p.1 }, p.2)
      else luaK_exp2anyreg fs1 e1) = .ok (o, e', fs') →
      Keeps S F fs e fs' e' ∧ Operand o e'.k := by
    intro r hrS hval htemps hread h
    split_ifs at h with hfit
    · obtain ⟨⟨i, fs2⟩, h2, h⟩ := bind_ok.mp h
      obtain ⟨rfl, rfl, rfl⟩ : o = RKASK i ∧ e' = { e1 with k := .VK i } ∧ fs' = fs2 := by
        cases h
        exact ⟨rfl, rfl, rfl⟩
      obtain ⟨step, hframe, hlt, hle, hK⟩ := addConstant_step keeps.step.ready hS hrS h2
      have hfree : fs'.freereg = fs1.freereg := by rw [hframe]
      have hcode : fs'.code = fs1.code := by rw [hframe]
      refine ⟨keeps.trans ⟨step, ⟨hp1.t, hp1.f, hlt, step.nactvar.trans_le hp1.nactvar, ?_⟩, ?_⟩,
        .inr ⟨i, hle.trans hfit, rfl, rfl⟩⟩
      · rw [hfree, hp1.freereg, htemps]
        rfl
      · intro env K r0 hK' _
        have hsame : out env K r0 fs' = out env K r0 fs1 := by rw [out, hcode, out]
        rw [hread]
        show Agree (Same F) (out env K r0 fs' >>= fun regs => .ok (regs, K.getD i .nil)) _
        simp only [hsame, hK K hK', hval]
        exact .refl Same.refl _
    · exact anyreg h
  obtain ⟨k, t, f⟩ := e1
  cases k with
  | VKNUM nval =>
    exact constant (.number nval)
      (fun n hn => by cases hn; exact hmem _ (hnum ▸ hp1.numeral?_eq rfl))
      (fun _ _ => rfl) rfl (fun _ _ _ => rfl) h
  | VTRUE => exact constant (.boolean true) nofun (fun _ _ => rfl) rfl (fun _ _ _ => rfl) h
  | VFALSE => exact constant (.boolean false) nofun (fun _ _ => rfl) rfl (fun _ _ _ => rfl) h
  | VNIL => exact constant .nil nofun (fun _ _ => rfl) rfl (fun _ _ _ => rfl) h
  | VK info =>
    dsimp only at h
    split_ifs at h with hle
    · cases h
      exact ⟨keeps, .inr ⟨info, hle, rfl, rfl⟩⟩
    · exact anyreg h
  | _ => exact anyreg h

end Emit

end Luaxx.Code