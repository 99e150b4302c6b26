import Luaxx.Lib.Codec
import Luaxx.Lib.LittleEndian
import Luaxx.Bytecode.Checkcode

/-!
# Loading and saving precompiled chunks (`lundump.c`, `ldump.c`)

Both sides for a 64-bit little-endian machine: `int` and `Instruction` have four bytes, `size_t`
and `lua_Number` eight. The `ZIO` is the list of the bytes not read yet, the dump the list of the
bytes given to a writer that always returns 0. Allocations succeed.

`LoadFunction` counts `L->nCcalls` up to `LUAI_MAXCCALLS`; its first argument is what is left of
them.
-/

namespace Luaxx.Bytecode

open Luaxx.Codec Luaxx.LittleEndian

def LUAI_MAXCCALLS : Nat := 200

def LUA_TNIL : UInt8 := 0
def LUA_TBOOLEAN : UInt8 := 1
def LUA_TNUMBER : UInt8 := 3
def LUA_TSTRING : UInt8 := 4

/-- A list of bytes as the signed 32-bit number they are. -/
def intLE (bs : List UInt8) : Int :=
  if natLE bs < 2 ^ 31 then natLE bs else (natLE bs : Int) - 2 ^ 32

/-- The four bytes of an `int`. -/
def bytesOfInt (x : Int) : List UInt8 := bytesLE 4 (x % 2 ^ 32).toNat

/-- `luaU_header`. -/
def luaU_header : List UInt8 := [0x1b, 0x4c, 0x75, 0x61, 0x51, 0, 1, 4, 8, 4, 8, 0]

def LUAC_HEADERSIZE : Nat := 12

/-! ## `lundump.c` -/

/-- The name shown in messages is all that the reading functions use of it. -/
structure LoadState where
  name : String

/-- The message of `error(S, why)`. -/
def loadError (S : LoadState) (why : String) : String :=
  S.name ++ ": " ++ why ++ " in precompiled chunk"

section Load

variable (S : LoadState)

def LoadBlock (size : Nat) : Reader String (List UInt8) :=
  readBlock (loadError S "unexpected end") size

def LoadChar : Reader String UInt8 := do
  let x ← LoadBlock S 1
  pure (x.getD 0 0)

def LoadInt : Reader String Int := do
  let x ← LoadBlock S 4
  if intLE x < 0 then fail (loadError S "bad integer") else pure (intLE x)

def LoadNumber : Reader String UInt64 := do
  let x ← LoadBlock S 8
  pure (UInt64.ofNat (natLE x))

def LoadString : Reader String (Option TString) := do
  let size ← LoadBlock S 8
  if natLE size = 0 then pure none
  else do
    let s ← LoadBlock S (natLE size)
    -- remove trailing '\0'
    pure (some s.dropLast)

/-- An element of a vector of instructions. -/
def LoadInstruction : Reader String Instruction := do
  let x ← LoadBlock S 4
  pure (UInt32.ofNat (natLE x))

/-- An element of a vector of `int`. -/
def LoadRawInt : Reader String Int := do
  let x ← LoadBlock S 4
  pure (intLE x)

/-- A count and as many elements: the size field and the array. -/
def loadVector {α : Type} (r : Reader String α) : Reader String (Int × List α) := do
  let n ← LoadInt S
  let xs ← readMany r n.toNat
  pure (n, xs)

def LoadCode : Reader String (Int × List Instruction) := loadVector S (LoadInstruction S)

/-- One turn of the first loop of `LoadConstants`. -/
def loadConstant : Reader String Constant := do
  let t ← LoadChar S
  if t = LUA_TNIL then pure .nil
  else if t = LUA_TBOOLEAN then do
    let b ← LoadChar S
    pure (.boolean (b != 0))
  else if t = LUA_TNUMBER then do
    let n ← LoadNumber S
    pure (.number n)
  else if t = LUA_TSTRING then do
    let s ← LoadString S
    pure (.string s)
  else fail (loadError S "bad constant")

def LoadConstants : Reader String (Int × List Constant) := loadVector S (loadConstant S)

def loadLocVar : Reader String LocVar := do
  let varname ← LoadString S
  let startpc ← LoadInt S
  let endpc ← LoadInt S
  pure ⟨varname, startpc, endpc⟩

structure DebugInfo where
  lineinfo : Int × List Int
  locvars : Int × List LocVar
  upvalues : Int × List (Option TString)

def LoadDebug : Reader String DebugInfo := do
  let lineinfo ← loadVector S (LoadRawInt S)
  let locvars ← loadVector S (loadLocVar S)
  let upvalues ← loadVector S (LoadString S)
  pure ⟨lineinfo, locvars, upvalues⟩

def LoadFunction : Nat → Option TString → Reader String Proto
  | 0, _ => fail (loadError S "code too deep")
  | room + 1, p => do
    let s ← LoadString S
    let source := if s.isNone then p else s
    let linedefined ← LoadInt S
    let lastlinedefined ← LoadInt S
    let nups ← LoadChar S
    let numparams ← LoadChar S
    let is_vararg ← LoadChar S
    let maxstacksize ← LoadChar S
    let code ← LoadCode S
    let k ← LoadConstants S
    let protos ← loadVector S (LoadFunction room source)
    let debug ← LoadDebug S
    let f : Proto :=
      { k := k.2, code := code.2, p := protos.2, lineinfo := debug.lineinfo.2,
        locvars := debug.locvars.2, upvalues := debug.upvalues.2, source := source,
        sizeupvalues := debug.upvalues.1, sizek := k.1, sizecode := code.1,
        sizelineinfo := debug.lineinfo.1, sizep := protos.1, sizelocvars := debug.locvars.1,
        linedefined := linedefined, lastlinedefined := lastlinedefined, nups := nups,
        numparams := numparams, is_vararg := is_vararg, maxstacksize := maxstacksize }
    if luaG_checkcode f then pure f else fail (loadError S "bad code")

def LoadHeader : Reader String Unit := do
  let s ← LoadBlock S LUAC_HEADERSIZE
  if s != luaU_header then fail (loadError S "bad header") else pure ()

end Load

/-- The name for messages: the chunk name without its mark. -/
def loadName (name : String) : String :=
  match name.toList with
  | '@' :: cs => String.ofList cs
  | '=' :: cs => String.ofList cs
  | '\x1b' :: _ => "binary string"
  | _ => name

/-- `"=?"`, the source of a function loaded without one. -/
def noSource : TString := [0x3d, 0x3f]

/-- What `luaU_undump` reads, with `room` calls left. -/
def undumpChunk (S : LoadState) (room : Nat) : Reader String Proto := do
  LoadHeader S
  LoadFunction S room (some noSource)

/-- `luaU_undump` with `nCcalls` calls in progress, on the bytes of `Z`. -/
def luaU_undump (nCcalls : Nat) (Z : List UInt8) (name : String) : Except String Proto :=
  (undumpChunk ⟨loadName name⟩ (LUAI_MAXCCALLS - nCcalls) Z).map (·.1)

/-! ## `ldump.c` -/

def DumpChar (y : UInt8) : List UInt8 := [y]

def DumpInt (x : Int) : List UInt8 := bytesOfInt x

def DumpNumber (x : UInt64) : List UInt8 := bytesLE 8 x.toNat

def DumpString : Option TString → List UInt8
  | none => bytesLE 8 0
  | some s => bytesLE 8 (s.length + 1) ++ (s ++ [0])

/-- The first `n` elements of an array. -/
def dumpElements {α : Type} (dump : α → List UInt8) (n : Int) (b : List α) : List UInt8 :=
  (b.take n.toNat).flatMap dump

def DumpCode (f : Proto) : List UInt8 :=
  DumpInt f.sizecode ++ dumpElements (fun i => bytesLE 4 i.toNat) f.sizecode f.code

/-- One turn of the first loop of `DumpConstants`. -/
def dumpConstant : Constant → List UInt8
  | .nil => DumpChar LUA_TNIL
  | .boolean b => DumpChar LUA_TBOOLEAN ++ DumpChar (if b then 1 else 0)
  | .number n => DumpChar LUA_TNUMBER ++ DumpNumber n
  | .string s => DumpChar LUA_TSTRING ++ DumpString s

def DumpConstants (f : Proto) : List UInt8 :=
  DumpInt f.sizek ++ dumpElements dumpConstant f.sizek f.k

def dumpLocVar (v : LocVar) : List UInt8 :=
  DumpString v.varname ++ DumpInt v.startpc ++ DumpInt v.endpc

def DumpDebug (strip : Bool) (f : Proto) : List UInt8 :=
  let n := if strip then 0 else f.sizelineinfo
  let m := if strip then 0 else f.sizelocvars
  let u := if strip then 0 else f.sizeupvalues
  (DumpInt n ++ dumpElements bytesOfInt n f.lineinfo) ++
    (DumpInt m ++ dumpElements dumpLocVar m f.locvars) ++
    (DumpInt u ++ dumpElements DumpString u f.upvalues)

/-- Everything of a function up to the functions nested in it. -/
def dumpHead (strip : Bool) (f : Proto) (p : Option TString) : List UInt8 :=
  DumpString (if f.source = p ∨ strip then none else f.source) ++
    DumpInt f.linedefined ++ DumpInt f.lastlinedefined ++
    DumpChar f.nups ++ DumpChar f.numparams ++ DumpChar f.is_vararg ++ DumpChar f.maxstacksize ++
    DumpCode f ++ DumpConstants f

mutual
def DumpFunction (strip : Bool) (p : Option TString) : Proto → List UInt8
  | f@⟨_, _, ps, _, _, _, source, _, _, _, _, sizep, _, _, _, _, _, _, _⟩ =>
    dumpHead strip f p ++ DumpInt sizep ++ dumpProtos strip source sizep.toNat ps ++
      DumpDebug strip f
/-- The loop over `f->p`. -/
def dumpProtos (strip : Bool) (p : Option TString) : Nat → List Proto → List UInt8
  | 0, _ => []
  | _ + 1, [] => []
  | n + 1, f :: fs => DumpFunction strip p f ++ dumpProtos strip p n fs
end

def luaU_dump (f : Proto) (strip : Bool) : List UInt8 :=
  luaU_header ++ DumpFunction strip none f

end Luaxx.Bytecode
