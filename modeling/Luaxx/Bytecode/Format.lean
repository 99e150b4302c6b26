import Luaxx.Bytecode.Undump

/-!
# The format of precompiled functions

The grammar behind `LoadFunction`: a `RawFunction` is what the bytes of a function say, field by
field, with a string as the bytes counted by its size field (the trailing `'\0'` among them, and
no bytes at all for `NULL`). `encode` writes it, `toProto` is the prototype it stands for, and
`Ok` are the checks of the loader. `LoadFunction_decodes` is the loader's specification: it
accepts exactly the encodings that are `Ok`.
-/

namespace Luaxx.Bytecode

open Luaxx.Codec Luaxx.LittleEndian Luaxx.Result

/-! ## Strings and numbers -/

abbrev RawString := List UInt8

def RawString.encode (s : RawString) : List UInt8 := bytesLE 8 s.length ++ s

/-- `NULL` for size 0, else the string without its last byte. -/
def RawString.value (s : RawString) : Option TString := if s = [] then none else some s.dropLast

def RawString.Ok (s : RawString) : Prop := s.length < 2 ^ 64

theorem loadBlock_decodes (S : LoadState) (n : Nat) :
    Decodes (LoadBlock S n) id (fun bs => bs.length = n) id := readBlock_decodes _ n

/-- A number of `k` bytes, converted. -/
theorem readNumber_decodes {α : Type} (S : LoadState) (k : Nat) (f : List UInt8 → α) :
    Decodes (do let x ← LoadBlock S k; pure (f x)) (bytesLE k) (fun n => n < 256 ^ k)
      (fun n => f (bytesLE k n)) :=
  (loadBlock_decodes S k).map natLE (bytesLE k)
    (fun bs hbs => by
      subst hbs
      exact ⟨natLE_lt bs, bytesLE_natLE bs, by rw [bytesLE_natLE]; rfl⟩)
    (fun n hn => ⟨length_bytesLE k n, rfl, rfl⟩)

theorem loadChar_decodes (S : LoadState) :
    Decodes (LoadChar S) (fun x => [x]) (fun _ => True) id :=
  (loadBlock_decodes S 1).map (fun bs => bs.getD 0 0) (fun x => [x])
    (fun bs hbs => by
      match bs, hbs with
      | [x], _ => exact ⟨trivial, rfl, rfl⟩)
    (fun x _ => ⟨rfl, rfl, rfl⟩)

theorem intLE_bytesLE {n : Nat} (hn : n < 2 ^ 32) :
    intLE (bytesLE 4 n) = if n < 2 ^ 31 then (n : Int) else (n : Int) - 2 ^ 32 := by
  rw [intLE, natLE_bytesLE, Nat.mod_eq_of_lt (by simpa using hn)]

/-- An `int` is accepted when its sign bit is clear. -/
theorem loadInt_decodes (S : LoadState) :
    Decodes (LoadInt S) (bytesLE 4) (fun n => n < 2 ^ 31) (fun n => (n : Int)) where
  sound := by
    intro inp a rest h
    obtain ⟨bs, mid, hbs, hk⟩ := bind_run_ok.mp h
    obtain ⟨_, hlen, rfl, rfl⟩ := (loadBlock_decodes S 4).sound hbs
    have hlt : natLE bs < 2 ^ 32 := by
      have := natLE_lt bs
      rw [hlen] at this
      exact this
    rw [ite_run, fail_run, ite_error_ok, pure_run] at hk
    obtain ⟨hneg, hk⟩ := hk
    obtain ⟨rfl, rfl⟩ := Prod.mk.injEq .. ▸ Except.ok.inj hk
    simp only [id_eq, intLE] at hneg ⊢
    have h31 : natLE bs < 2 ^ 31 := by
      by_contra hge
      rw [if_neg hge] at hneg
      omega
    rw [if_pos h31]
    exact ⟨natLE bs, h31, by rw [← hlen, bytesLE_natLE], rfl⟩
  complete := by
    intro n hn rest
    have hblock := (loadBlock_decodes S 4).complete (bytesLE 4 n) (length_bytesLE 4 n) rest
    have hval : intLE (bytesLE 4 n) = n := by rw [intLE_bytesLE (by omega), if_pos hn]
    refine bind_run_ok.mpr ⟨_, _, hblock, ?_⟩
    rw [id_eq, hval, if_neg (by omega)]
    rfl

theorem loadString_decodes (S : LoadState) :
    Decodes (LoadString S) RawString.encode RawString.Ok RawString.value where
  sound := by
    intro inp a rest h
    obtain ⟨bs, mid, hbs, hk⟩ := bind_run_ok.mp h
    obtain ⟨_, hlen8, rfl, rfl⟩ := (loadBlock_decodes S 8).sound hbs
    have hlt : natLE bs < 2 ^ 64 := by
      have := natLE_lt bs
      rw [hlen8] at this
      exact this
    have henc : bytesLE 8 (natLE bs) = bs := by rw [← hlen8, bytesLE_natLE]
    rw [id_eq]
    rw [ite_run] at hk
    by_cases h0 : natLE bs = 0
    · rw [if_pos h0] at hk
      obtain ⟨rfl, rfl⟩ := Prod.mk.injEq .. ▸ Except.ok.inj hk
      refine ⟨[], ?_, ?_, rfl⟩
      · exact Nat.pow_pos (by decide)
      · rw [RawString.encode, List.length_nil, ← h0, henc, List.append_nil]
    · rw [if_neg h0] at hk
      obtain ⟨bs', mid', hs, hk'⟩ := bind_run_ok.mp hk
      obtain ⟨_, hlen, rfl, rfl⟩ := (loadBlock_decodes S (natLE bs)).sound hs
      obtain ⟨rfl, rfl⟩ := Prod.mk.injEq .. ▸ Except.ok.inj hk'
      have hne : bs' ≠ [] := fun hnil => h0 (by rw [← hlen, hnil]; rfl)
      have hok : bs'.length < 2 ^ 64 := by
        rw [hlen]
        exact hlt
      refine ⟨bs', hok, ?_, ?_⟩
      · rw [RawString.encode, hlen, henc, List.append_assoc, id_eq]
      · rw [RawString.value, if_neg hne]
  complete := by
    intro s hs rest
    have hsize := (loadBlock_decodes S 8).complete (bytesLE 8 s.length) (length_bytesLE 8 _)
      (s ++ rest)
    have hnat : natLE (bytesLE 8 s.length) = s.length := by
      rw [natLE_bytesLE]
      exact Nat.mod_eq_of_lt hs
    rw [RawString.encode, List.append_assoc]
    refine bind_run_ok.mpr ⟨_, _, hsize, ?_⟩
    rw [id_eq, hnat, ite_run]
    by_cases hnil : s = []
    · subst hnil
      rfl
    · rw [if_neg (fun h0 => hnil (List.length_eq_zero_iff.mp h0)), RawString.value, if_neg hnil]
      exact bind_run_ok.mpr ⟨_, _, (loadBlock_decodes S s.length).complete s rfl rest, rfl⟩

/-! ## Vectors -/

section Vector

variable {ρ α : Type}

def encodeVector (enc : ρ → List UInt8) (xs : List ρ) : List UInt8 :=
  bytesLE 4 xs.length ++ xs.flatMap enc

/-- Every element is right, and there are not more of them than an `int` counts. -/
def VectorOk (ok : ρ → Prop) (xs : List ρ) : Prop := xs.length < 2 ^ 31 ∧ ∀ x ∈ xs, ok x

theorem loadVector_decodes (S : LoadState) {r : Reader String α} {enc : ρ → List UInt8}
    {ok : ρ → Prop} {val : ρ → α} (h : Decodes r enc ok val) :
    Decodes (loadVector S r) (encodeVector enc) (VectorOk ok)
      (fun xs => ((xs.length : Int), xs.map val)) where
  sound := by
    intro inp a rest h'
    obtain ⟨n, mid, hn, h'⟩ := bind_run_ok.mp h'
    obtain ⟨m, hm, rfl, rfl⟩ := (loadInt_decodes S).sound hn
    obtain ⟨as, mid', has, h'⟩ := bind_run_ok.mp h'
    obtain ⟨xs, ⟨hlen, hxs⟩, rfl, rfl⟩ := (readMany_decodes h _).sound has
    obtain ⟨rfl, rfl⟩ := Prod.mk.injEq .. ▸ Except.ok.inj h'
    rw [Int.toNat_natCast] at hlen
    subst hlen
    exact ⟨xs, ⟨hm, hxs⟩, by rw [encodeVector, List.append_assoc], rfl⟩
  complete := by
    intro xs hxs rest
    rw [encodeVector, List.append_assoc]
    refine bind_run_ok.mpr ⟨_, _, (loadInt_decodes S).complete _ hxs.1 _, ?_⟩
    exact bind_run_ok.mpr ⟨_, _, (readMany_decodes h _).complete xs ⟨rfl, hxs.2⟩ rest, rfl⟩

end Vector

/-! ## Constants, locals and functions -/

inductive RawConstant where
  | nil
  | boolean (b : UInt8)
  | number (n : UInt64)
  | string (s : RawString)

namespace RawConstant

def encode : RawConstant → List UInt8
  | nil => [LUA_TNIL]
  | boolean b => [LUA_TBOOLEAN, b]
  | number n => LUA_TNUMBER :: bytesLE 8 n.toNat
  | string s => LUA_TSTRING :: s.encode

def value : RawConstant → Constant
  | nil => .nil
  | boolean b => .boolean (b != 0)
  | number n => .number n
  | string s => .string s.value

def Ok : RawConstant → Prop
  | string s => s.Ok
  | _ => True

end RawConstant

theorem loadNumber_decodes (S : LoadState) :
    Decodes (LoadNumber S) (fun n => bytesLE 8 n.toNat) (fun _ => True) id :=
  (loadBlock_decodes S 8).map (fun bs => UInt64.ofNat (natLE bs)) (fun n => bytesLE 8 n.toNat)
    (fun bs hbs => by
      have hlt := natLE_lt bs
      rw [hbs] at hlt
      have hnat : (UInt64.ofNat (natLE bs)).toNat = natLE bs :=
        (UInt64.toNat_ofNat' ..).trans (Nat.mod_eq_of_lt hlt)
      exact ⟨trivial, by rw [hnat, ← hbs, bytesLE_natLE]; rfl, rfl⟩)
    (fun n _ => by
      refine ⟨length_bytesLE 8 _, rfl, ?_⟩
      rw [id_eq, id_eq, natLE_bytesLE]
      show UInt64.ofNat (n.toNat % 2 ^ 64) = n
      rw [Nat.mod_eq_of_lt n.toNat_lt, UInt64.ofNat_toNat])

theorem loadInstruction_decodes (S : LoadState) :
    Decodes (LoadInstruction S) (fun i => bytesLE 4 i.toNat) (fun _ => True) id :=
  (loadBlock_decodes S 4).map (fun bs => UInt32.ofNat (natLE bs)) (fun n => bytesLE 4 n.toNat)
    (fun bs hbs => by
      have hlt := natLE_lt bs
      rw [hbs] at hlt
      have hnat : (UInt32.ofNat (natLE bs)).toNat = natLE bs :=
        (UInt32.toNat_ofNat' ..).trans (Nat.mod_eq_of_lt hlt)
      exact ⟨trivial, by rw [hnat, ← hbs, bytesLE_natLE]; rfl, rfl⟩)
    (fun n _ => by
      refine ⟨length_bytesLE 4 _, rfl, ?_⟩
      rw [id_eq, id_eq, natLE_bytesLE]
      show UInt32.ofNat (n.toNat % 2 ^ 32) = n
      rw [Nat.mod_eq_of_lt n.toNat_lt, UInt32.ofNat_toNat])

theorem LoadCode_decodes (S : LoadState) :
    Decodes (LoadCode S) (encodeVector fun i => bytesLE 4 i.toNat) (VectorOk fun _ => True)
      (fun xs => ((xs.length : Int), xs)) := by
  have h := loadVector_decodes S (loadInstruction_decodes S)
  simp only [List.map_id] at h
  exact h

/-- An element of `lineinfo` may have any sign. -/
theorem loadRawInt_decodes (S : LoadState) :
    Decodes (LoadRawInt S) (bytesLE 4) (fun n => n < 2 ^ 32)
      (fun n => if n < 2 ^ 31 then (n : Int) else (n : Int) - 2 ^ 32) := by
  have h := readNumber_decodes S 4 intLE
  refine ⟨fun {inp a rest} hr => ?_, fun n hn rest => ?_⟩
  · obtain ⟨n, hn, rfl, rfl⟩ := h.sound hr
    exact ⟨n, hn, rfl, intLE_bytesLE hn⟩
  · rw [← intLE_bytesLE hn]
    exact h.complete n hn rest

/-- A constant is its tag and what belongs to it. -/
theorem loadConstant_decodes (S : LoadState) :
    Decodes (loadConstant S) RawConstant.encode RawConstant.Ok RawConstant.value where
  sound := by
    intro inp a rest h
    obtain ⟨t, mid, ht, hk⟩ := bind_run_ok.mp h
    obtain ⟨t, -, rfl, rfl⟩ := (loadChar_decodes S).sound ht
    rw [ite_run, ite_run, ite_run, ite_run] at hk
    split_ifs at hk with h0 h1 h3 h4
    · obtain ⟨rfl, rfl⟩ := Prod.mk.injEq .. ▸ Except.ok.inj hk
      exact ⟨.nil, trivial, by rw [h0]; rfl, rfl⟩
    · obtain ⟨b, mid', hb, hk'⟩ := bind_run_ok.mp hk
      obtain ⟨b, -, rfl, rfl⟩ := (loadChar_decodes S).sound hb
      obtain ⟨rfl, rfl⟩ := Prod.mk.injEq .. ▸ Except.ok.inj hk'
      exact ⟨.boolean b, trivial, by rw [h1]; rfl, rfl⟩
    · obtain ⟨n, mid', hn, hk'⟩ := bind_run_ok.mp hk
      obtain ⟨n, -, rfl, rfl⟩ := (loadNumber_decodes S).sound hn
      obtain ⟨rfl, rfl⟩ := Prod.mk.injEq .. ▸ Except.ok.inj hk'
      exact ⟨.number n, trivial, by rw [h3]; rfl, rfl⟩
    · obtain ⟨s, mid', hs, hk'⟩ := bind_run_ok.mp hk
      obtain ⟨s, hok, rfl, rfl⟩ := (loadString_decodes S).sound hs
      obtain ⟨rfl, rfl⟩ := Prod.mk.injEq .. ▸ Except.ok.inj hk'
      exact ⟨.string s, hok, by rw [h4]; rfl, rfl⟩
    · cases hk
  complete := by
    intro c hc rest
    cases c with
    | nil => exact bind_run_ok.mpr ⟨_, _, (loadChar_decodes S).complete LUA_TNIL trivial rest, rfl⟩
    | boolean b =>
        exact bind_run_ok.mpr ⟨_, _, (loadChar_decodes S).complete LUA_TBOOLEAN trivial (b :: rest),
          bind_run_ok.mpr ⟨_, _, (loadChar_decodes S).complete b trivial rest, rfl⟩⟩
    | number n =>
        exact bind_run_ok.mpr ⟨_, _, (loadChar_decodes S).complete LUA_TNUMBER trivial _,
          bind_run_ok.mpr ⟨_, _, (loadNumber_decodes S).complete n trivial rest, rfl⟩⟩
    | string s =>
        exact bind_run_ok.mpr ⟨_, _, (loadChar_decodes S).complete LUA_TSTRING trivial _,
          bind_run_ok.mpr ⟨_, _, (loadString_decodes S).complete s hc rest, rfl⟩⟩

structure RawLocVar where
  varname : RawString
  startpc : Nat
  endpc : Nat

namespace RawLocVar

def encode (v : RawLocVar) : List UInt8 :=
  v.varname.encode ++ (bytesLE 4 v.startpc ++ bytesLE 4 v.endpc)

def value (v : RawLocVar) : LocVar := ⟨v.varname.value, v.startpc, v.endpc⟩

def Ok (v : RawLocVar) : Prop := v.varname.Ok ∧ v.startpc < 2 ^ 31 ∧ v.endpc < 2 ^ 31

end RawLocVar

theorem loadLocVar_decodes (S : LoadState) :
    Decodes (loadLocVar S) RawLocVar.encode RawLocVar.Ok RawLocVar.value where
  sound := by
    intro inp a rest h
    obtain ⟨s, mid, hs, h1⟩ := bind_run_ok.mp h
    obtain ⟨m, mid', hm, h2⟩ := bind_run_ok.mp h1
    obtain ⟨n, mid'', hn, h3⟩ := bind_run_ok.mp h2
    obtain ⟨s, hsok, rfl, rfl⟩ := (loadString_decodes S).sound hs
    obtain ⟨m, hmok, rfl, rfl⟩ := (loadInt_decodes S).sound hm
    obtain ⟨n, hnok, rfl, rfl⟩ := (loadInt_decodes S).sound hn
    obtain ⟨rfl, rfl⟩ := Prod.mk.injEq .. ▸ Except.ok.inj h3
    exact ⟨⟨s, m, n⟩, ⟨hsok, hmok, hnok⟩, by simp [RawLocVar.encode], rfl⟩
  complete := by
    rintro ⟨s, m, n⟩ ⟨hs, hm, hn⟩ rest
    simp only [RawLocVar.encode, List.append_assoc]
    exact bind_run_ok.mpr ⟨_, _, (loadString_decodes S).complete s hs _,
      bind_run_ok.mpr ⟨_, _, (loadInt_decodes S).complete m hm _,
        bind_run_ok.mpr ⟨_, _, (loadInt_decodes S).complete n hn _, rfl⟩⟩⟩

/-- The bytes of a function, field by field. -/
structure RawFunction where
  source : RawString
  linedefined : Nat
  lastlinedefined : Nat
  nups : UInt8
  numparams : UInt8
  is_vararg : UInt8
  maxstacksize : UInt8
  code : List Instruction
  k : List RawConstant
  p : List RawFunction
  lineinfo : List Nat
  locvars : List RawLocVar
  upvalues : List RawString

namespace RawFunction

def encodeHead (f : RawFunction) : List UInt8 :=
  f.source.encode ++ (bytesLE 4 f.linedefined ++ (bytesLE 4 f.lastlinedefined ++
    ([f.nups] ++ ([f.numparams] ++ ([f.is_vararg] ++ ([f.maxstacksize] ++
      (encodeVector (fun i => bytesLE 4 i.toNat) f.code ++
        encodeVector RawConstant.encode f.k)))))))

def encodeDebug (f : RawFunction) : List UInt8 :=
  encodeVector (bytesLE 4) f.lineinfo ++
    (encodeVector RawLocVar.encode f.locvars ++ encodeVector RawString.encode f.upvalues)

/-- An entry of `lineinfo`. -/
def lineValue (n : Nat) : Int := if n < 2 ^ 31 then (n : Int) else (n : Int) - 2 ^ 32

/-- A source that is not written is inherited. -/
def sourceValue (parent : Option TString) (f : RawFunction) : Option TString :=
  if f.source.value.isNone then parent else f.source.value

/-- The fields of `f` with these nested functions. -/
def build (parent : Option TString) (f : RawFunction) (ps : List Proto) : Proto where
  k := f.k.map RawConstant.value
  code := f.code
  p := ps
  lineinfo := f.lineinfo.map lineValue
  locvars := f.locvars.map RawLocVar.value
  upvalues := f.upvalues.map RawString.value
  source := sourceValue parent f
  sizeupvalues := f.upvalues.length
  sizek := f.k.length
  sizecode := f.code.length
  sizelineinfo := f.lineinfo.length
  sizep := ps.length
  sizelocvars := f.locvars.length
  linedefined := f.linedefined
  lastlinedefined := f.lastlinedefined
  nups := f.nups
  numparams := f.numparams
  is_vararg := f.is_vararg
  maxstacksize := f.maxstacksize

/-- The checks of the loader on the fields of one function. -/
structure FieldsOk (f : RawFunction) : Prop where
  source : f.source.Ok
  linedefined : f.linedefined < 2 ^ 31
  lastlinedefined : f.lastlinedefined < 2 ^ 31
  code : f.code.length < 2 ^ 31
  k : VectorOk RawConstant.Ok f.k
  p : f.p.length < 2 ^ 31
  lineinfo : VectorOk (fun n => n < 2 ^ 32) f.lineinfo
  locvars : VectorOk RawLocVar.Ok f.locvars
  upvalues : VectorOk RawString.Ok f.upvalues

mutual
def encode : RawFunction → List UInt8
  | f@⟨_, _, _, _, _, _, _, _, _, p, _, _, _⟩ =>
    encodeHead f ++ (bytesLE 4 p.length ++ encodeAll p ++ encodeDebug f)
def encodeAll : List RawFunction → List UInt8
  | [] => []
  | f :: fs => encode f ++ encodeAll fs
end

mutual
def toProto (parent : Option TString) : RawFunction → Proto
  | f@⟨_, _, _, _, _, _, _, _, _, p, _, _, _⟩ =>
    build parent f (toProtos (sourceValue parent f) p)
def toProtos (parent : Option TString) : List RawFunction → List Proto
  | [] => []
  | f :: fs => toProto parent f :: toProtos parent fs
end

mutual
/-- The checks of the loader with `room` calls left. -/
def Ok (room : Nat) (parent : Option TString) : RawFunction → Prop
  | f@⟨_, _, _, _, _, _, _, _, _, p, _, _, _⟩ =>
    0 < room ∧ FieldsOk f ∧ AllOk (room - 1) (sourceValue parent f) p ∧
      luaG_checkcode (build parent f (toProtos (sourceValue parent f) p)) = true
def AllOk (room : Nat) (parent : Option TString) : List RawFunction → Prop
  | [] => True
  | f :: fs => Ok room parent f ∧ AllOk room parent fs
end

mutual
/-- A property of a function and of every function nested in it. -/
def Forall (P : RawFunction → Prop) : RawFunction → Prop
  | f@⟨_, _, _, _, _, _, _, _, _, p, _, _, _⟩ => P f ∧ ForallIn P p
def ForallIn (P : RawFunction → Prop) : List RawFunction → Prop
  | [] => True
  | f :: fs => Forall P f ∧ ForallIn P fs
end

theorem forall_iff {P : RawFunction → Prop} (f : RawFunction) :
    Forall P f ↔ P f ∧ ∀ g ∈ f.p, Forall P g := by
  have hin : ∀ fs : List RawFunction, ForallIn P fs ↔ ∀ g ∈ fs, Forall P g := by
    intro fs
    induction fs with
    | nil => simp [ForallIn]
    | cons f fs ih => rw [ForallIn, ih, List.forall_mem_cons]
  rw [← hin]
  cases f
  rfl

theorem encode_eq (f : RawFunction) :
    encode f = encodeHead f ++ (encodeVector encode f.p ++ encodeDebug f) := by
  have hall : ∀ fs : List RawFunction, encodeAll fs = fs.flatMap encode := by
    intro fs
    induction fs with
    | nil => rfl
    | cons f fs ih => rw [encodeAll, ih, List.flatMap_cons]
  cases f
  rw [encode, encodeVector, hall]

theorem toProtos_eq (parent : Option TString) (fs : List RawFunction) :
    toProtos parent fs = fs.map (toProto parent) := by
  induction fs with
  | nil => rfl
  | cons f fs ih => rw [toProtos, ih, List.map_cons]

theorem toProto_eq (parent : Option TString) (f : RawFunction) :
    toProto parent f = build parent f (f.p.map (toProto (sourceValue parent f))) := by
  cases f
  rw [toProto, toProtos_eq]

theorem allOk_iff (room : Nat) (parent : Option TString) (fs : List RawFunction) :
    AllOk room parent fs ↔ ∀ f ∈ fs, Ok room parent f := by
  induction fs with
  | nil => simp [AllOk]
  | cons f fs ih => simp [AllOk, ih]

theorem ok_iff (room : Nat) (parent : Option TString) (f : RawFunction) :
    Ok room parent f ↔ 0 < room ∧ FieldsOk f ∧
      (∀ g ∈ f.p, Ok (room - 1) (sourceValue parent f) g) ∧
      luaG_checkcode (toProto parent f) = true := by
  rw [← allOk_iff, toProto_eq, ← toProtos_eq]
  cases f
  rfl

/-- More calls left do no harm. -/
theorem Ok.mono {room room' : Nat} (hle : room ≤ room') {parent : Option TString}
    {f : RawFunction} (h : Ok room parent f) : Ok room' parent f := by
  induction room generalizing room' parent f with
  | zero => exact absurd ((ok_iff 0 parent f).mp h).1 (Nat.lt_irrefl 0)
  | succ room ih =>
    obtain ⟨-, hok, hps, hcheck⟩ := (ok_iff _ parent f).mp h
    refine (ok_iff room' parent f).mpr ⟨by omega, hok, fun g hg => ?_, hcheck⟩
    exact ih (by omega) (hps g hg)

/-- The calls left bound the nesting of what is loaded. -/
theorem Ok.depth_le {room : Nat} {parent : Option TString} {f : RawFunction}
    (h : Ok room parent f) : (toProto parent f).depth ≤ room := by
  induction room generalizing parent f with
  | zero => exact absurd ((ok_iff 0 parent f).mp h).1 (Nat.lt_irrefl 0)
  | succ room ih =>
    obtain ⟨-, -, hps, -⟩ := (ok_iff _ parent f).mp h
    rw [Proto.depth_eq, Nat.add_le_add_iff_right, Proto.depthIn_le, toProto_eq]
    intro q hq
    obtain ⟨g, hg, rfl⟩ := List.mem_map.mp hq
    exact ih (hps g hg)

end RawFunction

open RawFunction

/-- The loader reads exactly the functions of the format that pass its checks. -/
theorem LoadFunction_decodes (S : LoadState) (room : Nat) (parent : Option TString) :
    Decodes (LoadFunction S room parent) encode (Ok room parent) (toProto parent) := by
  induction room generalizing parent with
  | zero =>
      refine ⟨fun h => (by cases h), fun f hf => ?_⟩
      exact absurd ((ok_iff 0 parent f).mp hf).1 (Nat.lt_irrefl 0)
  | succ room ih =>
      have hcode := LoadCode_decodes S
      have hk := loadVector_decodes S (loadConstant_decodes S)
      have hline := loadVector_decodes S (loadRawInt_decodes S)
      have hloc := loadVector_decodes S (loadLocVar_decodes S)
      have hup := loadVector_decodes S (loadString_decodes S)
      refine ⟨fun {inp g rest} h => ?_, fun f hf rest => ?_⟩
      · obtain ⟨s, m1, r1, h1⟩ := bind_run_ok.mp h
        obtain ⟨ld, m2, r2, h2⟩ := bind_run_ok.mp h1
        obtain ⟨lld, m3, r3, h3⟩ := bind_run_ok.mp h2
        obtain ⟨nups, m4, r4, h4⟩ := bind_run_ok.mp h3
        obtain ⟨np, m5, r5, h5⟩ := bind_run_ok.mp h4
        obtain ⟨va, m6, r6, h6⟩ := bind_run_ok.mp h5
        obtain ⟨ms, m7, r7, h7⟩ := bind_run_ok.mp h6
        obtain ⟨code, m8, r8, h8⟩ := bind_run_ok.mp h7
        obtain ⟨k, m9, r9, h9⟩ := bind_run_ok.mp h8
        obtain ⟨ps, m10, r10, h10⟩ := bind_run_ok.mp h9
        obtain ⟨debug, m11, r11, h11⟩ := bind_run_ok.mp h10
        obtain ⟨li, m12, r12, h12⟩ := bind_run_ok.mp r11
        obtain ⟨lv, m13, r13, h13⟩ := bind_run_ok.mp h12
        obtain ⟨uv, m14, r14, h14⟩ := bind_run_ok.mp h13
        obtain ⟨s, os, rfl, rfl⟩ := (loadString_decodes S).sound r1
        obtain ⟨ld, old, rfl, rfl⟩ := (loadInt_decodes S).sound r2
        obtain ⟨lld, olld, rfl, rfl⟩ := (loadInt_decodes S).sound r3
        obtain ⟨nups, -, rfl, rfl⟩ := (loadChar_decodes S).sound r4
        obtain ⟨np, -, rfl, rfl⟩ := (loadChar_decodes S).sound r5
        obtain ⟨va, -, rfl, rfl⟩ := (loadChar_decodes S).sound r6
        obtain ⟨ms, -, rfl, rfl⟩ := (loadChar_decodes S).sound r7
        obtain ⟨code, ocode, rfl, rfl⟩ := hcode.sound r8
        obtain ⟨k, ok, rfl, rfl⟩ := hk.sound r9
        obtain ⟨ps, ops, rfl, rfl⟩ := (loadVector_decodes S (ih _)).sound r10
        obtain ⟨li, oli, rfl, rfl⟩ := hline.sound r12
        obtain ⟨lv, olv, rfl, rfl⟩ := hloc.sound r13
        obtain ⟨uv, ouv, rfl, rfl⟩ := hup.sound r14
        obtain ⟨rfl, rfl⟩ := Prod.mk.injEq .. ▸ Except.ok.inj h14
        rw [ite_run, fail_run, ite_ok_error] at h11
        obtain ⟨hcheck, h11⟩ := h11
        obtain ⟨rfl, rfl⟩ := Prod.mk.injEq .. ▸ Except.ok.inj h11
        let f : RawFunction := ⟨s, ld, lld, nups, np, va, ms, code, k, ps, li, lv, uv⟩
        have hval : toProto parent f = build parent f (ps.map (toProto (sourceValue parent f))) :=
          toProto_eq parent f
        refine ⟨f, (ok_iff _ parent f).mpr ⟨Nat.succ_pos _, ?_, ops.2, ?_⟩, ?_, ?_⟩
        · exact ⟨os, old, olld, ocode.1, ok, ops.1, oli, olv, ouv⟩
        · rw [hval, build, List.length_map]
          exact hcheck
        · simp only [encode_eq, encodeHead, encodeDebug, List.append_assoc, f]
        · rw [hval, build, List.length_map]
          rfl
      · obtain ⟨-, hok, hps, hcheck⟩ := (ok_iff _ parent f).mp hf
        rw [encode_eq]
        simp only [encodeHead, encodeDebug, List.append_assoc]
        refine bind_run_ok.mpr ⟨_, _, (loadString_decodes S).complete _ hok.source _, ?_⟩
        refine bind_run_ok.mpr ⟨_, _, (loadInt_decodes S).complete _ hok.linedefined _, ?_⟩
        refine bind_run_ok.mpr ⟨_, _, (loadInt_decodes S).complete _ hok.lastlinedefined _, ?_⟩
        refine bind_run_ok.mpr ⟨_, _, (loadChar_decodes S).complete _ trivial _, ?_⟩
        refine bind_run_ok.mpr ⟨_, _, (loadChar_decodes S).complete _ trivial _, ?_⟩
        refine bind_run_ok.mpr ⟨_, _, (loadChar_decodes S).complete _ trivial _, ?_⟩
        refine bind_run_ok.mpr ⟨_, _, (loadChar_decodes S).complete _ trivial _, ?_⟩
        refine bind_run_ok.mpr ⟨_, _, hcode.complete _ ⟨hok.code, fun _ _ => trivial⟩ _, ?_⟩
        refine bind_run_ok.mpr ⟨_, _, hk.complete _ hok.k _, ?_⟩
        refine bind_run_ok.mpr ⟨_, _, (loadVector_decodes S (ih _)).complete _ ⟨hok.p, hps⟩ _, ?_⟩
        have hdebug : LoadDebug S (encodeVector (bytesLE 4) f.lineinfo ++
            (encodeVector RawLocVar.encode f.locvars ++
              (encodeVector RawString.encode f.upvalues ++ rest))) = .ok (_, rest) :=
          bind_run_ok.mpr ⟨_, _, hline.complete _ hok.lineinfo _,
            bind_run_ok.mpr ⟨_, _, hloc.complete _ hok.locvars _,
              bind_run_ok.mpr ⟨_, _, hup.complete _ hok.upvalues _, rfl⟩⟩⟩
        refine bind_run_ok.mpr ⟨_, _, hdebug, ?_⟩
        rw [ite_run, fail_run, ite_ok_error]
        rw [toProto_eq, build, List.length_map] at hcheck
        exact ⟨hcheck, by rw [toProto_eq, build, List.length_map]; rfl⟩

/-! ## Chunks -/

def encodeChunk (f : RawFunction) : List UInt8 := luaU_header ++ f.encode

theorem LoadHeader_ok {S : LoadState} {inp rest : List UInt8} :
    LoadHeader S inp = .ok ((), rest) ↔ inp = luaU_header ++ rest := by
  constructor
  · intro h
    obtain ⟨bs, mid, hbs, hk⟩ := bind_run_ok.mp h
    obtain ⟨_, -, rfl, rfl⟩ := (loadBlock_decodes S _).sound hbs
    rw [ite_run, fail_run, ite_error_ok, bne_iff_ne, ne_eq, not_not] at hk
    obtain ⟨rfl, hk⟩ := hk
    obtain ⟨-, rfl⟩ := Prod.mk.injEq .. ▸ Except.ok.inj hk
    rfl
  · rintro rfl
    have hblock := (loadBlock_decodes S LUAC_HEADERSIZE).complete luaU_header rfl rest
    refine bind_run_ok.mpr ⟨_, _, hblock, ?_⟩
    rfl

/-- A chunk is the header and a function. -/
theorem undumpChunk_decodes (S : LoadState) (room : Nat) :
    Decodes (undumpChunk S room) encodeChunk (Ok room (some noSource))
      (toProto (some noSource)) where
  sound := by
    intro inp g rest h
    obtain ⟨_, mid, hhead, hf⟩ := bind_run_ok.mp h
    obtain rfl := LoadHeader_ok.mp hhead
    obtain ⟨f, hok, rfl, rfl⟩ := (LoadFunction_decodes S room _).sound hf
    exact ⟨f, hok, by rw [encodeChunk, List.append_assoc], rfl⟩
  complete := by
    intro f hok rest
    refine bind_run_ok.mpr ⟨(), f.encode ++ rest, LoadHeader_ok.mpr ?_, ?_⟩
    · rw [encodeChunk, List.append_assoc]
    · exact (LoadFunction_decodes S room _).complete f hok rest

/-- What `luaU_undump` accepts: the chunks of the format, whatever follows them. -/
theorem luaU_undump_ok {nCcalls : Nat} {Z : List UInt8} {name : String} {g : Proto} :
    luaU_undump nCcalls Z name = .ok g ↔
      ∃ f rest, Ok (LUAI_MAXCCALLS - nCcalls) (some noSource) f ∧ Z = encodeChunk f ++ rest ∧
        g = toProto (some noSource) f := by
  have hdec := undumpChunk_decodes ⟨loadName name⟩ (LUAI_MAXCCALLS - nCcalls)
  rw [luaU_undump]
  constructor
  · intro h
    cases hr : undumpChunk ⟨loadName name⟩ (LUAI_MAXCCALLS - nCcalls) Z with
    | error e => rw [hr] at h; cases h
    | ok p =>
      rw [hr] at h
      obtain ⟨f, hok, hZ, hg⟩ := hdec.sound hr
      exact ⟨f, p.2, hok, hZ, (Except.ok.inj h).symm.trans hg⟩
  · rintro ⟨f, rest, hok, rfl, rfl⟩
    rw [hdec.complete f hok rest]
    rfl

end Luaxx.Bytecode
