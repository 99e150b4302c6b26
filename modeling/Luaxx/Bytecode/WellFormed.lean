import Luaxx.Bytecode.Format

/-!
# What the loader returns

The virtual machine and the collector trust a loaded function: a constant with the tag of a string
has a string, names are there, the size fields are those of the arrays, and the code passes the
checker. All of this holds of what `luaU_undump` returns but for one thing: a string of size 0 is
loaded as `NULL` wherever a string may stand, and only for the source is that a meaning of its own.
-/

namespace Luaxx.Bytecode

open Luaxx.Codec

/-- The shape of one function that later code relies on. -/
structure Trusted (f : Proto) : Prop where
  sized : f.Sized
  constants : ∀ c ∈ f.k, c ≠ .string none
  source : f.source.isSome
  locvars : ∀ v ∈ f.locvars, v.varname.isSome
  upvalues : ∀ u ∈ f.upvalues, u.isSome
  checked : luaG_checkcode f = true

/-- A function all of whose nested functions have that shape. -/
def WellFormed (f : Proto) : Prop := f.Forall Trusted

/-- No string of one function, its source apart, has size 0. -/
structure RawFunction.Named (f : RawFunction) : Prop where
  constants : ∀ s, RawConstant.string s ∈ f.k → s ≠ []
  locvars : ∀ v ∈ f.locvars, v.varname ≠ []
  upvalues : ∀ u ∈ f.upvalues, u ≠ []

theorem RawString.value_isSome {s : RawString} : s.value.isSome ↔ s ≠ [] := by
  unfold RawString.value
  split_ifs with h <;> simp [h]

theorem RawConstant.value_ne_null {c : RawConstant} :
    c.value ≠ .string none ↔ ∀ s, c = .string s → s ≠ [] := by
  cases c with
  | string s =>
    rw [RawConstant.value, ne_eq, Constant.string.injEq, ← Option.not_isSome_iff_eq_none, not_not,
      RawString.value_isSome]
    simp
  | _ => simp [RawConstant.value]

section Loaded

variable {room : Nat} {parent : Option TString} {f : RawFunction}

theorem sourceValue_isSome (hp : parent.isSome) : (f.sourceValue parent).isSome := by
  unfold RawFunction.sourceValue
  split_ifs with h
  · exact hp
  · exact Option.isSome_iff_ne_none.mpr (by simpa using h)

/-- One function is trusted as far as its strings are there. -/
theorem trusted_iff (hp : parent.isSome) (hcheck : luaG_checkcode (f.toProto parent) = true) :
    Trusted (f.toProto parent) ↔ f.Named := by
  rw [RawFunction.toProto_eq] at hcheck ⊢
  constructor
  · rintro ⟨-, hk, -, hv, hu, -⟩
    refine ⟨fun s hs => ?_, fun v hmem => ?_, fun u hmem => ?_⟩
    · exact RawConstant.value_ne_null.mp (hk _ (List.mem_map_of_mem hs)) s rfl
    · exact RawString.value_isSome.mp (hv _ (List.mem_map_of_mem hmem))
    · exact RawString.value_isSome.mp (hu _ (List.mem_map_of_mem hmem))
  · rintro ⟨hk, hv, hu⟩
    refine ⟨?_, fun c hc => ?_, sourceValue_isSome hp, fun v hmem => ?_, fun u hmem => ?_, hcheck⟩
    · constructor <;> simp [RawFunction.build]
    · obtain ⟨c, hmem, rfl⟩ := List.mem_map.mp hc
      exact RawConstant.value_ne_null.mpr fun s hs => hk s (hs ▸ hmem)
    · obtain ⟨v, hv', rfl⟩ := List.mem_map.mp hmem
      exact RawString.value_isSome.mpr (hv v hv')
    · obtain ⟨u, hu', rfl⟩ := List.mem_map.mp hmem
      exact RawString.value_isSome.mpr (hu u hu')

/-- The same for a function with all the functions nested in it. -/
theorem wellFormed_iff (hp : parent.isSome) (h : f.Ok room parent) :
    WellFormed (f.toProto parent) ↔ f.Forall RawFunction.Named := by
  induction room generalizing parent f with
  | zero => exact absurd ((RawFunction.ok_iff 0 parent f).mp h).1 (Nat.lt_irrefl 0)
  | succ room ih =>
    obtain ⟨-, -, hps, hcheck⟩ := (RawFunction.ok_iff _ parent f).mp h
    have hsource : (f.sourceValue parent).isSome := sourceValue_isSome hp
    rw [WellFormed, Proto.forall_iff, Proto.forallIn_iff, RawFunction.forall_iff,
      trusted_iff hp hcheck, RawFunction.toProto_eq]
    refine and_congr_right fun _ => ?_
    show (∀ g ∈ f.p.map _, _) ↔ _
    rw [List.forall_mem_map]
    exact forall₂_congr fun g hg => ih hsource (hps g hg)

end Loaded

/-- Whatever the bytes, what is returned is well formed exactly when the chunk they begin with
has no string of size 0 but for sources. -/
theorem luaU_undump_wellFormed_iff (nCcalls : Nat) (Z : List UInt8) (name : String) :
    (∀ g, luaU_undump nCcalls Z name = .ok g → WellFormed g) ↔
      ∀ f rest, Z = encodeChunk f ++ rest → f.Ok (LUAI_MAXCCALLS - nCcalls) (some noSource) →
        f.Forall RawFunction.Named := by
  constructor
  · rintro h f rest rfl hok
    exact (wellFormed_iff rfl hok).mp (h _ (luaU_undump_ok.mpr ⟨f, rest, hok, rfl, rfl⟩))
  · intro h g hg
    obtain ⟨f, rest, hok, hZ, rfl⟩ := luaU_undump_ok.mp hg
    exact (wellFormed_iff rfl hok).mpr (h f rest hZ hok)

/-- A function with code `GETGLOBAL 0 0; RETURN 0 1`, whose constant is a string of size 0. -/
def nullName : RawFunction :=
  ⟨[], 0, 0, 0, 0, 0, 2, [CREATE_ABx .GETGLOBAL 0 0, CREATE_ABC .RETURN 0 1 0], [.string []], [], [],
    [], []⟩

def nullNameChunk : List UInt8 :=
  [0x1b, 0x4c, 0x75, 0x61, 0x51, 0, 1, 4, 8, 4, 8, 0,
   0, 0, 0, 0, 0, 0, 0, 0,  -- source
   0, 0, 0, 0, 0, 0, 0, 0, 0, 0, 0, 2,
   2, 0, 0, 0, 5, 0, 0, 0, 0x1e, 0, 0x80, 0,
   1, 0, 0, 0, 4, 0, 0, 0, 0, 0, 0, 0, 0,  -- one constant: a string of size 0
   0, 0, 0, 0, 0, 0, 0, 0, 0, 0, 0, 0, 0, 0, 0, 0]

/-- The name of a global variable may be `NULL` in what is loaded. -/
theorem luaU_undump_nullName :
    ∃ g, luaU_undump 0 nullNameChunk "c" = .ok g ∧ .string none ∈ g.k ∧ ¬ WellFormed g := by
  have hcheck : luaG_checkcode (nullName.toProto (some noSource)) = true := by decide
  have hok : nullName.Ok LUAI_MAXCCALLS (some noSource) := by
    rw [RawFunction.ok_iff]
    refine ⟨by decide, ?_, by simp [nullName], hcheck⟩
    constructor <;> simp [nullName, VectorOk, RawString.Ok, RawConstant.Ok]
  refine ⟨_, luaU_undump_ok.mpr ⟨nullName, [], hok, by decide, rfl⟩, ?_, fun h => ?_⟩
  · rw [RawFunction.toProto_eq]
    exact List.mem_cons_self ..
  · have hnamed := ((RawFunction.forall_iff _).mp ((wellFormed_iff rfl hok).mp h)).1
    exact hnamed.constants [] (List.mem_cons_self ..) rfl

end Luaxx.Bytecode
