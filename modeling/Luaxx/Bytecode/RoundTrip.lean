import Luaxx.Bytecode.Format

/-!
# Dumping and loading a compiled function

`rawFunction` is the description of a prototype in the format of precompiled functions, in full
or stripped. What `DumpFunction` writes is its encoding, and what it stands for is the prototype
again, less what stripping leaves out. With the specification of the loader this gives the round
trip, the depth up to which it works, and the rejection of every truncated dump.
-/

namespace Luaxx.Bytecode

open Luaxx.Codec Luaxx.LittleEndian Luaxx.Result

/-! ## What the compiler promises -/

/-- The size of a string, with its `'\0'`, is a `size_t`. -/
def Short (s : Option TString) : Prop := ∀ t, s = some t → t.length + 1 < 2 ^ 64

/-- A number of elements, a line or a position in the code. -/
def Count (x : Int) : Prop := 0 ≤ x ∧ x < 2 ^ 31

def ConstantShort : Constant → Prop
  | .string s => Short s
  | _ => True

/-- What is true of one function when `close_func` has finished it: the arrays have their exact
sizes, sizes and positions are `int`s, and its assertion `luaG_checkcode(f)` holds. -/
structure Closed (f : Proto) : Prop where
  sized : f.Sized
  code : Count f.code.length
  constants : Count f.k.length ∧ ∀ c ∈ f.k, ConstantShort c
  protos : Count f.p.length
  lineinfo : Count f.lineinfo.length ∧ ∀ x ∈ f.lineinfo, -2 ^ 31 ≤ x ∧ x < 2 ^ 31
  locvars : Count f.locvars.length ∧
    ∀ v ∈ f.locvars, Short v.varname ∧ Count v.startpc ∧ Count v.endpc
  upvalues : Count f.upvalues.length ∧ ∀ u ∈ f.upvalues, Short u
  lines : Count f.linedefined ∧ Count f.lastlinedefined
  source : f.source.isSome ∧ Short f.source
  checked : luaG_checkcode f = true

/-- A prototype all of whose functions `close_func` has finished. -/
def Compiled (f : Proto) : Prop := f.Forall Closed

/-! ## What stripping leaves -/

/-- One function without its debug information, with these nested functions. -/
def stripWith (f : Proto) (ps : List Proto) : Proto :=
  { f with
    p := ps, lineinfo := [], locvars := [], upvalues := [], source := some noSource,
    sizeupvalues := 0, sizelineinfo := 0, sizelocvars := 0 }

mutual
def stripped : Proto → Proto
  | f@⟨_, _, p, _, _, _, _, _, _, _, _, _, _, _, _, _, _, _, _⟩ => stripWith f (strippedAll p)
def strippedAll : List Proto → List Proto
  | [] => []
  | f :: fs => stripped f :: strippedAll fs
end

theorem strippedAll_eq (fs : List Proto) : strippedAll fs = fs.map stripped := by
  induction fs with
  | nil => rfl
  | cons f fs ih => rw [strippedAll, ih, List.map_cons]

theorem stripped_eq (f : Proto) : stripped f = stripWith f (f.p.map stripped) := by
  cases f
  rw [stripped, strippedAll_eq]

/-! ## The checker does not look at what is stripped -/

section Strip

variable {f g : Proto}

/-- The fields on which the instruction checks depend. -/
structure SameCode (f g : Proto) : Prop where
  code : g.code = f.code
  k : g.k = f.k
  sizecode : g.sizecode = f.sizecode
  sizek : g.sizek = f.sizek
  sizep : g.sizep = f.sizep
  nups : g.nups = f.nups
  is_vararg : g.is_vararg = f.is_vararg
  maxstacksize : g.maxstacksize = f.maxstacksize
  nupsAt : ∀ i, g.nupsAt i = f.nupsAt i

theorem SameCode.codeAt (h : SameCode f g) (pc : Nat) : g.codeAt pc = f.codeAt pc := by
  rw [Proto.codeAt, Proto.codeAt, h.code]

theorem SameCode.kAt (h : SameCode f g) (i : Nat) : g.kAt i = f.kAt i := by
  rw [Proto.kAt, Proto.kAt, h.k]

theorem SameCode.checkreg (h : SameCode f g) (r : Int) : checkreg g r = checkreg f r := by
  rw [Bytecode.checkreg, Bytecode.checkreg, h.maxstacksize]

theorem SameCode.setlistRun (h : SameCode f g) (n : Nat) : setlistRun g n = setlistRun f n := by
  induction n with
  | zero => rfl
  | succ n ih => rw [Bytecode.setlistRun, Bytecode.setlistRun, h.codeAt, ih]

theorem SameCode.checkInstr (h : SameCode f g) (pc : Nat) (op : OpCode) (i : Instruction) :
    checkInstr g pc op i = checkInstr f pc op i := by
  have hmode : ∀ r m, checkArgMode g r m = checkArgMode f r m := by
    intro r m
    cases m <;> simp only [checkArgMode, h.checkreg, h.sizek, h.maxstacksize]
  have hdest : ∀ d, checkdest g d = checkdest f d := by
    intro d
    rw [checkdest, checkdest, h.sizecode, h.setlistRun]
  have hformat : ∀ b c, checkFormat g pc op b c = checkFormat f pc op b c := by
    intro b c
    simp only [checkFormat, hmode, hdest, h.sizek]
  have htest : checkTest g pc op = checkTest f pc op := by
    simp only [checkTest, h.sizecode, h.codeAt]
  have hpseudo : ∀ n, checkPseudo g pc n = checkPseudo f pc n := by
    intro n
    simp only [checkPseudo, h.codeAt]
  have hop : ∀ a b c, checkOp g pc op a b c = checkOp f pc op a b c := by
    intro a b c
    cases op <;> simp only [checkOp, h.sizecode, h.codeAt, h.nups, h.kAt, h.checkreg, h.sizep,
      h.nupsAt, h.is_vararg, hpseudo]
  simp only [Bytecode.checkInstr, h.checkreg, hformat, htest, hop]

theorem SameCode.symbexecLoop (h : SameCode f g) (lastpc reg fuel pc last : Nat) :
    symbexecLoop g lastpc reg fuel pc last = symbexecLoop f lastpc reg fuel pc last := by
  have hskip : ∀ pc op b c, skip g lastpc reg pc op b c = skip f lastpc reg pc op b c := by
    intro pc op b c
    cases op <;> simp only [skip, h.nupsAt]
  induction fuel generalizing pc last with
  | zero => rfl
  | succ fuel ih => simp only [Bytecode.symbexecLoop, h.codeAt, h.checkInstr, hskip, ih]

theorem nupsAt_map {f : Proto} {g : Proto → Proto} (hg : ∀ q, (g q).nups = q.nups) (i : Nat) :
    (((f.p.map g)[i]?).map fun q => q.nups.toNat).getD 0 = f.nupsAt i := by
  rw [List.getElem?_map, Option.map_map, Proto.nupsAt]
  congr 2
  funext q
  exact congrArg UInt8.toNat (hg q)

theorem stripped_nups (f : Proto) : (stripped f).nups = f.nups := by rw [stripped_eq]; rfl

theorem sameCode_stripped (f : Proto) : SameCode f (stripped f) := by
  rw [stripped_eq]
  exact ⟨rfl, rfl, rfl, rfl, rfl, rfl, rfl, rfl, nupsAt_map stripped_nups⟩

theorem precheck_stripped (h : precheck f = true) : precheck (stripped f) = true := by
  have hs := sameCode_stripped f
  rw [stripped_eq] at hs ⊢
  simp only [precheck, hs.codeAt, Bool.and_eq_true] at h ⊢
  obtain ⟨⟨⟨⟨⟨h1, h2⟩, h3⟩, -⟩, -⟩, h6⟩ := h
  have hup : decide ((0 : Int) ≤ f.nups.toNat) = true := decide_eq_true (Int.natCast_nonneg _)
  exact ⟨⟨⟨⟨⟨h1, h2⟩, h3⟩, hup⟩, Bool.or_eq_true _ _ ▸ .inr rfl⟩, h6⟩

theorem luaG_checkcode_stripped (h : luaG_checkcode f = true) :
    luaG_checkcode (stripped f) = true := by
  have hs := sameCode_stripped f
  have hpre : precheck f = true := by
    by_contra hpre
    rw [luaG_checkcode, symbexec, if_neg hpre] at h
    exact absurd h (by decide)
  rw [luaG_checkcode, symbexec, if_pos hpre] at h
  rw [luaG_checkcode, symbexec, if_pos (precheck_stripped hpre)]
  simp only [hs.sizecode, hs.symbexecLoop, hs.codeAt]
  exact h

end Strip

/-! ## The description of a prototype -/

def rawString : Option TString → RawString
  | none => []
  | some s => s ++ [0]

def rawConstant : Constant → RawConstant
  | .nil => .nil
  | .boolean b => .boolean (if b then 1 else 0)
  | .number n => .number n
  | .string s => .string (rawString s)

/-- The number whose four bytes an `int` has. -/
def rawInt (x : Int) : Nat := (x % 2 ^ 32).toNat

def rawLocVar (v : LocVar) : RawLocVar := ⟨rawString v.varname, rawInt v.startpc, rawInt v.endpc⟩

/-- The source as it is written: `NULL` for the source of the enclosing function. -/
def rawSource (strip : Bool) (parent : Option TString) (f : Proto) : RawString :=
  rawString (if f.source = parent ∨ strip then none else f.source)

/-- The description of one function, with these nested ones. -/
def rawWith (strip : Bool) (parent : Option TString) (f : Proto) (ps : List RawFunction) :
    RawFunction where
  source := rawSource strip parent f
  linedefined := rawInt f.linedefined
  lastlinedefined := rawInt f.lastlinedefined
  nups := f.nups
  numparams := f.numparams
  is_vararg := f.is_vararg
  maxstacksize := f.maxstacksize
  code := f.code
  k := f.k.map rawConstant
  p := ps
  lineinfo := if strip then [] else f.lineinfo.map rawInt
  locvars := if strip then [] else f.locvars.map rawLocVar
  upvalues := if strip then [] else f.upvalues.map rawString

mutual
def rawFunction (strip : Bool) (parent : Option TString) : Proto → RawFunction
  | f@⟨_, _, p, _, _, _, source, _, _, _, _, _, _, _, _, _, _, _, _⟩ =>
    rawWith strip parent f (rawFunctions strip source p)
def rawFunctions (strip : Bool) (parent : Option TString) : List Proto → List RawFunction
  | [] => []
  | f :: fs => rawFunction strip parent f :: rawFunctions strip parent fs
end

theorem rawFunctions_eq (strip : Bool) (parent : Option TString) (fs : List Proto) :
    rawFunctions strip parent fs = fs.map (rawFunction strip parent) := by
  induction fs with
  | nil => rfl
  | cons f fs ih => rw [rawFunctions, ih, List.map_cons]

theorem rawFunction_eq (strip : Bool) (parent : Option TString) (f : Proto) :
    rawFunction strip parent f = rawWith strip parent f (f.p.map (rawFunction strip f.source)) := by
  cases f
  rw [rawFunction, rawFunctions_eq]

/-! ## What is written is its encoding -/

theorem DumpString_eq (s : Option TString) : DumpString s = (rawString s).encode := by
  cases s with
  | none => rfl
  | some s => rw [DumpString, rawString, RawString.encode, List.length_append]; rfl

theorem DumpInt_eq (x : Int) : DumpInt x = bytesLE 4 (rawInt x) := rfl

theorem DumpInt_natCast {n : Nat} (hn : Count n) : DumpInt n = bytesLE 4 n := by
  obtain ⟨-, hlt⟩ := hn
  rw [DumpInt_eq, rawInt, Int.emod_eq_of_lt (by omega) (by omega), Int.toNat_natCast]

theorem dumpConstant_eq (c : Constant) : dumpConstant c = (rawConstant c).encode := by
  cases c with
  | nil => rfl
  | boolean b => cases b <;> rfl
  | number n => rfl
  | string s => rw [dumpConstant, DumpString_eq]; rfl

theorem dumpLocVar_eq (v : LocVar) : dumpLocVar v = (rawLocVar v).encode := by
  rw [dumpLocVar, DumpString_eq, List.append_assoc]
  rfl

/-- A count and the elements it counts are the encoding of their descriptions. -/
theorem dumpVector_eq {α ρ : Type} (dump : α → List UInt8) (enc : ρ → List UInt8) (raw : α → ρ)
    (h : ∀ x, dump x = enc (raw x)) {xs : List α} (hlen : Count xs.length) :
    DumpInt xs.length ++ dumpElements dump xs.length xs = encodeVector enc (xs.map raw) := by
  rw [DumpInt_natCast hlen, dumpElements, Int.toNat_natCast, List.take_length, encodeVector,
    List.length_map, List.flatMap_map, funext h]

theorem DumpDebug_eq {strip : Bool} {f : Proto} (hf : Closed f) (parent : Option TString)
    (ps : List RawFunction) : DumpDebug strip f = (rawWith strip parent f ps).encodeDebug := by
  have hs := hf.sized
  cases strip with
  | true => rfl
  | false =>
    have h1 := dumpVector_eq bytesOfInt (bytesLE 4) rawInt (fun _ => rfl) hf.lineinfo.1
    have h2 := dumpVector_eq _ _ _ dumpLocVar_eq hf.locvars.1
    have h3 := dumpVector_eq _ _ _ DumpString_eq hf.upvalues.1
    simp only [DumpDebug, Bool.false_eq_true, if_false, hs.sizelineinfo, hs.sizelocvars,
      hs.sizeupvalues, h1, h2, h3, List.append_assoc]
    rfl

theorem dumpHead_eq {strip : Bool} {f : Proto} (hf : Closed f) (parent : Option TString)
    (ps : List RawFunction) :
    dumpHead strip f parent = (rawWith strip parent f ps).encodeHead := by
  have hs := hf.sized
  have h1 := dumpVector_eq (fun i : Instruction => bytesLE 4 i.toNat) (fun i => bytesLE 4 i.toNat) id
    (fun _ => rfl) hf.code
  have h2 := dumpVector_eq _ _ _ dumpConstant_eq hf.constants.1
  rw [List.map_id] at h1
  simp only [dumpHead, DumpCode, DumpConstants, hs.sizecode, hs.sizek, h1, h2, DumpString_eq,
    List.append_assoc]
  rfl

theorem dumpProtos_eq (strip : Bool) (p : Option TString) (fs : List Proto) :
    dumpProtos strip p fs.length fs = fs.flatMap (DumpFunction strip p) := by
  induction fs with
  | nil => rfl
  | cons f fs ih => rw [List.length_cons, dumpProtos, ih, List.flatMap_cons]

theorem DumpFunction_unfold (strip : Bool) (p : Option TString) (f : Proto) :
    DumpFunction strip p f = dumpHead strip f p ++ DumpInt f.sizep ++
      dumpProtos strip f.source f.sizep.toNat f.p ++ DumpDebug strip f := by
  cases f
  rw [DumpFunction]

theorem Compiled.closed {f : Proto} (hf : Compiled f) : Closed f := ((Proto.forall_iff f).mp hf).1

theorem Compiled.nested {f : Proto} (hf : Compiled f) : ∀ g ∈ f.p, Compiled g :=
  (Proto.forallIn_iff f.p).mp ((Proto.forall_iff f).mp hf).2

theorem DumpFunction_eq (strip : Bool) (f : Proto) : ∀ parent, Compiled f →
    DumpFunction strip parent f = (rawFunction strip parent f).encode := by
  induction f using Proto.nested_induction with
  | h f ih =>
    intro parent hf
    have hclosed := hf.closed
    have hps : f.p.flatMap (DumpFunction strip f.source) =
        (f.p.map (rawFunction strip f.source)).flatMap RawFunction.encode := by
      rw [List.flatMap_map, List.flatMap_def, List.flatMap_def]
      exact congrArg _ (List.map_congr_left fun g hg => ih g hg f.source (hf.nested g hg))
    rw [DumpFunction_unfold, RawFunction.encode_eq, rawFunction_eq, hclosed.sized.sizep,
      Int.toNat_natCast, dumpProtos_eq, DumpInt_natCast hclosed.protos,
      dumpHead_eq hclosed parent (f.p.map (rawFunction strip f.source)),
      DumpDebug_eq hclosed parent (f.p.map (rawFunction strip f.source)), hps]
    simp only [List.append_assoc, rawWith, encodeVector, List.length_map]

/-! ## What it stands for -/

theorem value_rawString (s : Option TString) : (rawString s).value = s := by
  cases s with
  | none => rfl
  | some s => simp [rawString, RawString.value]

theorem value_rawConstant (c : Constant) : (rawConstant c).value = c := by
  cases c with
  | nil => rfl
  | boolean b => cases b <;> rfl
  | number n => rfl
  | string s => rw [rawConstant, RawConstant.value, value_rawString]

theorem rawInt_eq {x : Int} (hx : Count x) : (rawInt x : Int) = x := by
  obtain ⟨h0, h1⟩ := hx
  rw [rawInt, Int.emod_eq_of_lt h0 (by omega), Int.toNat_of_nonneg h0]

theorem lineValue_rawInt {x : Int} (h : -2 ^ 31 ≤ x ∧ x < 2 ^ 31) :
    RawFunction.lineValue (rawInt x) = x := by
  unfold RawFunction.lineValue rawInt
  split_ifs <;> omega

theorem value_rawLocVar {v : LocVar} (h1 : Count v.startpc) (h2 : Count v.endpc) :
    (rawLocVar v).value = v := by
  rw [rawLocVar, RawLocVar.value, value_rawString, rawInt_eq h1, rawInt_eq h2]

/-- The value of a list of descriptions, element by element. -/
theorem map_raw {α ρ : Type} {raw : α → ρ} {value : ρ → α} {xs : List α}
    (h : ∀ x ∈ xs, value (raw x) = x) : (xs.map raw).map value = xs := by
  rw [List.map_map]
  exact (List.map_congr_left h).trans (List.map_id xs)

/-- What is loaded from the dump of a function. -/
def loaded (strip : Bool) (f : Proto) : Proto := if strip then stripped f else f

/-- The source in whose scope the dump of a function is loaded, when it was written in the scope
of `dumped`. -/
def Scope (strip : Bool) (dumped parent : Option TString) : Prop :=
  if strip then parent = some noSource else dumped = parent ∨ dumped = none

theorem sourceValue_rawWith {strip : Bool} {f : Proto} {dumped parent : Option TString}
    (hscope : Scope strip dumped parent) (hf : f.source.isSome) (ps : List RawFunction) :
    RawFunction.sourceValue parent (rawWith strip dumped f ps) =
      if strip then some noSource else f.source := by
  have hraw : (rawWith strip dumped f ps).source.value =
      if f.source = dumped ∨ strip then none else f.source := value_rawString _
  rw [RawFunction.sourceValue, hraw]
  cases strip with
  | true => simpa [Scope] using hscope
  | false =>
    obtain ⟨s, hs⟩ := Option.isSome_iff_exists.mp hf
    rcases hscope with rfl | rfl
    · by_cases h : f.source = dumped
      · simp [h]
      · rw [hs] at h
        simp [h, hs]
    · simp [hs]

/-- The fields of one function come back. -/
theorem build_rawWith {strip : Bool} {f : Proto} (hf : Closed f) {dumped parent : Option TString}
    (hscope : Scope strip dumped parent) (ps : List RawFunction) {qs : List Proto}
    (hqs : qs.length = f.p.length) :
    RawFunction.build parent (rawWith strip dumped f ps) qs =
      if strip then stripWith f qs else { f with p := qs } := by
  have hs := hf.sized
  have hsource := sourceValue_rawWith hscope hf.source.1 ps
  have hk : (f.k.map rawConstant).map RawConstant.value = f.k :=
    map_raw fun c _ => value_rawConstant c
  rw [RawFunction.build, hsource]
  cases strip with
  | true =>
    simp only [rawWith, stripWith, hk, rawInt_eq hf.lines.1, rawInt_eq hf.lines.2, if_true,
      List.map_nil, List.length_map, List.length_nil, hs.sizek, hs.sizecode, hs.sizep, hqs]
    rfl
  | false =>
    have hline : (f.lineinfo.map rawInt).map RawFunction.lineValue = f.lineinfo :=
      map_raw fun x hx => lineValue_rawInt (hf.lineinfo.2 x hx)
    have hloc : (f.locvars.map rawLocVar).map RawLocVar.value = f.locvars :=
      map_raw fun v hv => value_rawLocVar (hf.locvars.2 v hv).2.1 (hf.locvars.2 v hv).2.2
    have hup : (f.upvalues.map rawString).map RawString.value = f.upvalues :=
      map_raw fun s _ => value_rawString s
    simp only [rawWith, hk, hline, hloc, hup, rawInt_eq hf.lines.1, rawInt_eq hf.lines.2,
      Bool.false_eq_true, if_false, List.length_map, hqs]
    cases f
    obtain ⟨h1, h2, h3, h4, h5, h6⟩ := hs
    simp only at h1 h2 h3 h4 h5 h6
    simp only [h1, h2, h3, h4, h5, h6]

theorem toProto_rawFunction (strip : Bool) (f : Proto) : ∀ dumped parent,
    Scope strip dumped parent → Compiled f →
      RawFunction.toProto parent (rawFunction strip dumped f) = loaded strip f := by
  induction f using Proto.nested_induction with
  | h f ih =>
    intro dumped parent hscope hf
    have hsource := sourceValue_rawWith hscope hf.closed.source.1
    have hinner : Scope strip f.source (if strip then some noSource else f.source) := by
      cases strip
      · exact .inl rfl
      · rfl
    have hps : (f.p.map (rawFunction strip f.source)).map
        (RawFunction.toProto (if strip then some noSource else f.source)) =
          f.p.map (loaded strip) := by
      rw [List.map_map]
      exact List.map_congr_left fun g hg => ih g hg _ _ hinner (hf.nested g hg)
    rw [rawFunction_eq, RawFunction.toProto_eq, hsource]
    have hp : (rawWith strip dumped f (f.p.map (rawFunction strip f.source))).p =
      f.p.map (rawFunction strip f.source) := rfl
    rw [hp, hps, build_rawWith hf.closed hscope _ (List.length_map _)]
    cases strip with
    | true => rw [if_pos rfl, loaded, if_pos rfl, stripped_eq]; rfl
    | false =>
      have hid : f.p.map (loaded false) = f.p := List.map_id'' (fun _ => rfl) f.p
      rw [hid, if_neg Bool.false_ne_true, loaded, if_neg Bool.false_ne_true]
      cases f
      rfl

/-! ## What the loader checks -/

theorem rawString_ok {s : Option TString} (h : Short s) : (rawString s).Ok := by
  cases s with
  | none => exact Nat.pow_pos (by decide)
  | some s =>
    show (s ++ [0]).length < 2 ^ 64
    rw [List.length_append]
    exact h s rfl

theorem rawInt_lt {x : Int} (hx : Count x) : rawInt x < 2 ^ 31 := by
  have := rawInt_eq hx
  have := hx.2
  omega

theorem fieldsOk_rawWith {strip : Bool} {f : Proto} (hf : Closed f) (parent : Option TString)
    {ps : List RawFunction} (hps : ps.length = f.p.length) :
    (rawWith strip parent f ps).FieldsOk := by
  have hcount : ∀ {n : Nat}, Count n → n < 2 ^ 31 := fun h => by
    have := h.2
    omega
  have hnone : ∀ {ρ : Type} (ok : ρ → Prop), VectorOk ok [] := fun ok =>
    ⟨Nat.pow_pos (by decide), by simp⟩
  constructor
  case source =>
    show RawString.Ok (rawString _)
    refine rawString_ok ?_
    split_ifs
    · simp [Short]
    · exact hf.source.2
  case linedefined => exact rawInt_lt hf.lines.1
  case lastlinedefined => exact rawInt_lt hf.lines.2
  case code => exact hcount hf.code
  case k =>
    refine ⟨by simpa [rawWith] using hcount hf.constants.1, fun c hc => ?_⟩
    obtain ⟨c, hmem, rfl⟩ := List.mem_map.mp hc
    have := hf.constants.2 c hmem
    cases c with
    | string s => exact rawString_ok this
    | _ => trivial
  case p => exact hps ▸ hcount hf.protos
  case lineinfo =>
    cases strip
    · refine ⟨by simpa [rawWith] using hcount hf.lineinfo.1, fun n hn => ?_⟩
      obtain ⟨x, -, rfl⟩ := List.mem_map.mp hn
      unfold rawInt
      omega
    · exact hnone _
  case locvars =>
    cases strip
    · refine ⟨by simpa [rawWith] using hcount hf.locvars.1, fun w hw => ?_⟩
      obtain ⟨v, hv, rfl⟩ := List.mem_map.mp hw
      obtain ⟨h1, h2, h3⟩ := hf.locvars.2 v hv
      exact ⟨rawString_ok h1, rawInt_lt h2, rawInt_lt h3⟩
    · exact hnone _
  case upvalues =>
    cases strip
    · refine ⟨by simpa [rawWith] using hcount hf.upvalues.1, fun w hw => ?_⟩
      obtain ⟨u, hu, rfl⟩ := List.mem_map.mp hw
      exact rawString_ok (hf.upvalues.2 u hu)
    · exact hnone _

theorem checked_loaded {strip : Bool} {f : Proto} (hf : Closed f) :
    luaG_checkcode (loaded strip f) = true := by
  cases strip
  · exact hf.checked
  · exact luaG_checkcode_stripped hf.checked

/-- With calls enough for the nesting, the description passes the checks. -/
theorem ok_rawFunction (strip : Bool) (f : Proto) : ∀ room dumped parent,
    Scope strip dumped parent → Compiled f → f.depth ≤ room →
      RawFunction.Ok room parent (rawFunction strip dumped f) := by
  induction f using Proto.nested_induction with
  | h f ih =>
    intro room dumped parent hscope hf hroom
    rw [Proto.depth_eq] at hroom
    have hsource := sourceValue_rawWith hscope hf.closed.source.1
    rw [RawFunction.ok_iff, toProto_rawFunction strip f dumped parent hscope hf]
    refine ⟨by omega, ?_, fun g hg => ?_, checked_loaded hf.closed⟩
    · rw [rawFunction_eq]
      exact fieldsOk_rawWith hf.closed dumped (List.length_map _)
    · rw [rawFunction_eq] at hg ⊢
      rw [hsource]
      obtain ⟨q, hq, rfl⟩ := List.mem_map.mp hg
      refine ih q hq _ _ _ ?_ (hf.nested q hq) ?_
      · cases strip
        · exact .inl rfl
        · rfl
      · exact Proto.depthIn_le.mp (Nat.le_sub_one_of_lt hroom) q hq

/-! ## The round trip -/

theorem depth_stripped (f : Proto) : (stripped f).depth = f.depth := by
  induction f using Proto.nested_induction with
  | h f ih =>
    have hin : ∀ fs : List Proto, (∀ g ∈ fs, (stripped g).depth = g.depth) →
        Proto.depthIn (fs.map stripped) = Proto.depthIn fs := by
      intro fs
      induction fs with
      | nil => intro _; rfl
      | cons g gs ihgs =>
        intro hgs
        rw [List.map_cons, Proto.depthIn, Proto.depthIn, hgs g (List.mem_cons_self ..),
          ihgs fun q hq => hgs q (List.mem_cons_of_mem _ hq)]
    rw [stripped_eq, Proto.depth_eq, Proto.depth_eq f, ← hin f.p ih]
    rfl

theorem depth_loaded (strip : Bool) (f : Proto) : (loaded strip f).depth = f.depth := by
  cases strip
  · rfl
  · exact depth_stripped f

section Dump

variable {f : Proto} {strip : Bool}

theorem luaU_dump_eq (hf : Compiled f) :
    luaU_dump f strip = encodeChunk (rawFunction strip none f) := by
  rw [luaU_dump, DumpFunction_eq strip f none hf, encodeChunk]

theorem scope_chunk : Scope strip none (some noSource) := by
  cases strip
  · exact .inr rfl
  · rfl

/-- What is accepted of a dump, or of a part of it, is the whole dump, as what was dumped. -/
theorem undump_front (hf : Compiled f) {front back : List UInt8}
    (hsplit : luaU_dump f strip = front ++ back) {nCcalls : Nat} {name : String} {g : Proto}
    (h : luaU_undump nCcalls front name = .ok g) :
    back = [] ∧ g = loaded strip f ∧ f.depth ≤ LUAI_MAXCCALLS - nCcalls := by
  obtain ⟨y, rest, hy, rfl, rfl⟩ := luaU_undump_ok.mp h
  -- with calls enough for both, both are descriptions the loader accepts
  let room := max f.depth (LUAI_MAXCCALLS - nCcalls)
  have hx := ok_rawFunction strip f room none _ scope_chunk hf (Nat.le_max_left ..)
  have hy' : RawFunction.Ok room (some noSource) y := hy.mono (Nat.le_max_right ..)
  rw [luaU_dump_eq hf, List.append_assoc] at hsplit
  obtain ⟨hval, hback⟩ := (undumpChunk_decodes ⟨name⟩ room).prefix_free hx hy' hsplit
  rw [toProto_rawFunction strip f none _ scope_chunk hf] at hval
  have hdepth := hy.depth_le
  rw [← hval, depth_loaded] at hdepth
  exact ⟨(List.append_eq_nil_iff.mp hback).2, hval.symm, hdepth⟩

end Dump

/-- The round trip. Loading succeeds exactly when the nesting of functions fits the C calls left,
and no truncated dump is accepted. -/
theorem luaU_undump_dump {f : Proto} (hf : Compiled f) (nCcalls : Nat) (name : String) :
    (f.depth ≤ LUAI_MAXCCALLS - nCcalls →
      luaU_undump nCcalls (luaU_dump f false) name = .ok f ∧
      luaU_undump nCcalls (luaU_dump f true) name = .ok (stripped f)) ∧
    (LUAI_MAXCCALLS - nCcalls < f.depth →
      ∀ strip, ∃ e, luaU_undump nCcalls (luaU_dump f strip) name = .error e) ∧
    ∀ strip front back, luaU_dump f strip = front ++ back → back ≠ [] →
      ∃ e, luaU_undump nCcalls front name = .error e := by
  have hload : ∀ strip, f.depth ≤ LUAI_MAXCCALLS - nCcalls →
      luaU_undump nCcalls (luaU_dump f strip) name = .ok (loaded strip f) := by
    intro strip hdepth
    refine luaU_undump_ok.mpr ⟨rawFunction strip none f, [], ?_, ?_, ?_⟩
    · exact ok_rawFunction strip f _ none _ scope_chunk hf hdepth
    · rw [luaU_dump_eq hf, List.append_nil]
    · rw [toProto_rawFunction strip f none _ scope_chunk hf]
  refine ⟨fun hdepth => ⟨hload false hdepth, hload true hdepth⟩, fun hdeep strip => ?_,
    fun strip front back hsplit hback => ?_⟩
  · cases h : luaU_undump nCcalls (luaU_dump f strip) name with
    | error e => exact ⟨e, rfl⟩
    | ok g =>
      have := (undump_front hf (List.append_nil _).symm h).2.2
      omega
  · cases h : luaU_undump nCcalls front name with
    | error e => exact ⟨e, rfl⟩
    | ok g => exact absurd (undump_front hf hsplit h).1 hback

section Example

/-- `function() end`, on the first line of the chunk `=c`. -/
def emptyFunction : Proto where
  k := []
  code := [CREATE_ABC .RETURN 0 1 0]
  p := []
  lineinfo := [1]
  locvars := []
  upvalues := []
  source := some [0x3d, 0x63]
  sizeupvalues := 0
  sizek := 0
  sizecode := 1
  sizelineinfo := 1
  sizep := 0
  sizelocvars := 0
  linedefined := 1
  lastlinedefined := 1
  nups := 0
  numparams := 0
  is_vararg := 0
  maxstacksize := 2

/-- `return function() end`. -/
def nestedChunk : Proto where
  k := []
  code := [CREATE_ABx .CLOSURE 0 0, CREATE_ABC .RETURN 0 2 0, CREATE_ABC .RETURN 0 1 0]
  p := [emptyFunction]
  lineinfo := [1, 1, 1]
  locvars := []
  upvalues := []
  source := some [0x3d, 0x63]
  sizeupvalues := 0
  sizek := 0
  sizecode := 3
  sizelineinfo := 3
  sizep := 1
  sizelocvars := 0
  linedefined := 0
  lastlinedefined := 0
  nups := 0
  numparams := 0
  is_vararg := VARARG_ISVARARG
  maxstacksize := 2

theorem compiled_nestedChunk : Compiled nestedChunk := by
  have hshort : Short (some [0x3d, 0x63]) := by
    rintro t ⟨⟩
    decide
  have hinner : Closed emptyFunction := by
    constructor
    case checked => decide
    all_goals simp [emptyFunction, Count, hshort]
    exact ⟨rfl, rfl, rfl, rfl, rfl, rfl⟩
  have houter : Closed nestedChunk := by
    constructor
    case checked => decide
    all_goals simp [nestedChunk, Count, hshort]
    exact ⟨rfl, rfl, rfl, rfl, rfl, rfl⟩
  exact ⟨houter, ⟨hinner, trivial⟩, trivial⟩

theorem luaU_undump_dump_nestedChunk :
    luaU_undump 0 (luaU_dump nestedChunk false) "c" = .ok nestedChunk :=
  (((luaU_undump_dump compiled_nestedChunk 0 "c").1 (by decide)).1)

/-- Inside 199 C calls a function nested in another one is not loaded any more. -/
theorem luaU_undump_tooDeep : Compiled nestedChunk ∧
    ∀ g, luaU_undump 199 (luaU_dump nestedChunk false) "c" ≠ .ok g := by
  refine ⟨compiled_nestedChunk, fun g h => ?_⟩
  have hdepth := (undump_front compiled_nestedChunk (List.append_nil _).symm h).2.2
  exact absurd hdepth (by decide)

end Example

end Luaxx.Bytecode
