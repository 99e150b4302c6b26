import Luaxx.Collector.Heap

/-!
# The mark phase (`lgc.c`)

`markvalue` and `markobject` mark white objects. What has parts of its own is put in the gray list,
but for userdata and upvalues, whose few parts are marked at once. The loop of `propagateall` has a
bound, which the number of objects is.
-/

namespace Luaxx.Collector

/-- `luaC_white`, of a string that may already be marked. -/
def stringmark (a : Nat) (s : State) : State := s.recolour (.string a) Colour.white2gray

/-- A table, function, thread or prototype is linked in the list `gray`. -/
def linkgray (o : Ref) (s : State) : State :=
  { s.recolour o Colour.white2gray with gray := o :: s.gray }

def markgray (o : Ref) (s : State) : State := if s.iswhite o then linkgray o s else s

/-- `reallymarkobject`, of the objects that are values. -/
def reallymarkvalue (o : Ref) (s : State) : State :=
  match o with
  | .string a => stringmark a s
  | .udata u =>
    -- udata are never gray
    let s := s.recolour o (Colour.gray2black ∘ Colour.white2gray)
    let s := match (s.udata u).metatable with
      | some mt => markgray (.table mt) s
      | none => s
    markgray (.table (s.udata u).env) s
  | o => linkgray o s

def markvalue (v : Val) (s : State) : State :=
  match v.ref with
  | some o => if s.iswhite o then reallymarkvalue o s else s
  | none => s

def reallymarkobject (o : Ref) (s : State) : State :=
  match o with
  | .upval a =>
    let s := s.recolour o Colour.white2gray
    let s := markvalue (s.upvalue a) s
    match s.upval a with
    | .closed _ => s.recolour o Colour.gray2black
    -- open upvalues are never black
    | .stack _ _ => s
  | o => reallymarkvalue o s

def markobject (o : Ref) (s : State) : State := if s.iswhite o then reallymarkobject o s else s

def markvalues (vs : List Val) (s : State) : State := vs.foldl (fun s v => markvalue v s) s

def markobjects (os : List Ref) (s : State) : State := os.foldl (fun s o => markobject o s) s

/-! ## Traversal -/

/-- Only the key of an empty entry is removed. -/
def removeentry (n : Node) : Node := { n with dead := n.dead || n.key.ref.isSome }

/-- One entry of a table, with what is weak. -/
def marknode (weakkey weakvalue : Bool) (n : Node) (s : State) : State :=
  if n.val = .nil then s
  else
    let s := if weakkey then s else markvalue n.key s
    if weakvalue then s else markvalue n.val s

/-- The entries of a table, from the last one on. -/
def marknodes (weakkey weakvalue : Bool) (node : List Node) (s : State) : State :=
  node.foldr (marknode weakkey weakvalue) s

/-- A weak table must be cleared after the collection. -/
def linkweak (h : Nat) (weakkey weakvalue : Bool) (s : State) : State :=
  { s.setTable h { s.table h with keyweak := weakkey, valueweak := weakvalue } with
    weak := h :: s.weak }

/-- Whether the table is weak. -/
def traversetable (h : Nat) (s : State) : Bool × State :=
  let s := markobjects ((s.table h).metatable.toList.map .table) s
  let t := s.table h
  let (weakkey, weakvalue) := weakmode s t.metatable
  let s := if weakkey || weakvalue then linkweak h weakkey weakvalue s else s
  if weakkey && weakvalue then (true, s)
  else
    let s := if weakvalue then s else markvalues t.array.reverse s
    let s := marknodes weakkey weakvalue t.node s
    -- remove empty entries
    let s := s.setTable h { s.table h with
      node := (s.table h).node.map fun n => if n.val = .nil then removeentry n else n }
    (weakkey || weakvalue, s)

def stringmarks (strings : List Nat) (s : State) : State := strings.foldl (fun s a => stringmark a s) s

def traverseproto (f : Nat) (s : State) : State :=
  let p := s.proto f
  let s := stringmarks p.source.toList s
  let s := markvalues p.k s
  let s := stringmarks p.upvalues.reduceOption s
  let s := markobjects (p.p.reduceOption.map .proto) s
  stringmarks p.locvars.reduceOption s

def traverseclosure (f : Nat) (s : State) : State :=
  match s.function f with
  | .c env upvalue => markvalues upvalue (markobject (.table env) s)
  | .l env p upvals =>
    markobjects (upvals.map .upval) (markobject (.proto p) (markobject (.table env) s))

def traversestack (t : Nat) (s : State) : State :=
  let th := s.thread t
  let s := markvalue (.table th.gt) s
  let s := markvalues (th.stack.take th.top) s
  s.setThread t { th with
    stack := th.stack.take th.top ++ List.replicate (th.stack.length - th.top) .nil }

/-- Traverse one gray object, turning it to black. -/
def propagatemark (s : State) : State :=
  match s.gray with
  | [] => s
  | o :: gray =>
    let s := { s.recolour o Colour.gray2black with gray := gray }
    match o with
    | .table h =>
      let (weak, s) := traversetable h s
      -- keep it gray
      if weak then s.recolour o Colour.black2gray else s
    | .function f => traverseclosure f s
    | .thread t =>
      traversestack t ({ s with grayagain := o :: s.grayagain }.recolour o Colour.black2gray)
    | .proto f => traverseproto f s
    | _ => s

def propagateLoop : Nat → State → State
  | 0, s => s
  | n + 1, s => if s.gray.isEmpty then s else propagateLoop n (propagatemark s)

def propagateall (s : State) : State := propagateLoop (s.gray.length + s.objects.length) s

/-! ## The atomic step -/

def markmt (s : State) : State := markobjects (s.mt.reduceOption.map .table) s

def markroot (s : State) : State :=
  let s := { s with gray := [], grayagain := [], weak := [] }
  let s := markobject (.thread s.mainthread) s
  -- make global table be traversed before main stack
  let s := markvalue (.table (s.thread s.mainthread).gt) s
  let s := markvalue (.table s.registry) s
  { markmt s with gcstate := .GCSpropagate }

def remarkupvals (s : State) : State :=
  s.uvhead.foldl (fun s uv => if s.isgray (.upval uv) then markvalue (s.upvalue uv) s else s) s

/-- The loop of `luaC_separateudata`, with the objects that stay in the list. -/
def separateLoop (all : Bool) : List Ref → State → List Ref × State
  | [], s => ([], s)
  | .udata u :: rest, s =>
    let x := s.udata u
    if !(s.iswhite (.udata u) || all) || x.finalized then
      -- don't bother with them
      let (kept, s) := separateLoop all rest s
      (.udata u :: kept, s)
    else
      let s := s.setUdata u { x with finalized := true }
      if fasttm s x.metatable s.tm_gc = .nil then
        -- don't need finalization
        let (kept, s) := separateLoop all rest s
        (.udata u :: kept, s)
      else separateLoop all rest { s with tmudata := s.tmudata ++ [u] }
  | o :: rest, s =>
    let (kept, s) := separateLoop all rest s
    (o :: kept, s)

/-- Move dead udata that need finalization to the list `tmudata`. There are none before the main
thread. -/
def luaC_separateudata (all : Bool) (s : State) : State :=
  let (rootgc, s) := separateLoop all s.rootgc s
  let (sweepgc, s) := separateLoop all s.sweepgc s
  { s with rootgc := rootgc, sweepgc := sweepgc }

/-- They may be marked, if left from previous GC. -/
def marktmu (s : State) : State :=
  s.tmudata.foldl (fun s u => reallymarkobject (.udata u) (s.makewhite (.udata u))) s

/-- Whether a key or value can be cleared from a weak table. -/
def iscleared (v : Val) (iskey : Bool) (s : State) : Bool × State :=
  match v.ref with
  | none => (false, s)
  -- strings are values, so are never weak
  | some (.string a) => (false, stringmark a s)
  | some (.udata u) => (s.iswhite (.udata u) || (!iskey && (s.udata u).finalized), s)
  | some o => (s.iswhite o, s)

def cleararray : List Val → State → List Val × State
  | [], s => ([], s)
  | v :: rest, s =>
    let (rest, s) := cleararray rest s
    let (cleared, s) := iscleared v false s
    ((if cleared then .nil else v) :: rest, s)

def clearnodes : List Node → State → List Node × State
  | [], s => ([], s)
  | n :: rest, s =>
    let (rest, s) := clearnodes rest s
    if n.val = .nil then (n :: rest, s)
    else
      let (clearedkey, s) := iscleared n.key true s
      let (cleared, s) := if clearedkey then (true, s) else iscleared n.val false s
      ((if cleared then removeentry { n with val := .nil } else n) :: rest, s)

/-- Clear collected entries from a weak table. -/
def cleartable (h : Nat) (s : State) : State :=
  let t := s.table h
  let (array, s) := if t.valueweak then cleararray t.array s else (t.array, s)
  let (node, s) := clearnodes t.node s
  s.setTable h { t with array := array, node := node }

def cleartables (l : List Nat) (s : State) : State := l.foldl (fun s h => cleartable h s) s

/-- `atomic`, up to the separation of the userdata. -/
def atomicRemark (s : State) : State :=
  -- remark occasional upvalues of (maybe) dead threads
  let s := propagateall (remarkupvals s)
  -- remark weak tables
  let s := { s with gray := s.weak.map .table, weak := [] }
  let s := propagateall (markmt (markobject (.thread s.L) s))
  -- remark gray again
  propagateall { s with gray := s.grayagain, grayagain := [] }

/-- `atomic`, up to the clearing of the weak tables. -/
def atomicMark (s : State) : State :=
  -- separate userdata to be finalized, and mark them
  propagateall (marktmu (luaC_separateudata false (atomicRemark s)))

def atomic (s : State) : State :=
  let s := atomicMark s
  let s := cleartables s.weak s
  { s with
    currentwhite := s.currentwhite.other
    sweepstrgc := 0
    rootgc := []
    sweepgc := s.rootgc ++ s.sweepgc
    gcstate := .GCSsweepstring }

end Luaxx.Collector
