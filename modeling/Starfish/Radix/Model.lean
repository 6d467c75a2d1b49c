import Starfish.Trie

/-!
# Starfish.Radix.Model

The radix trees of `kernel/lib/radix.c`: 16 levels of nodes with 16 words each.
A word of a node is a child pointer or, on the leaf level, a value; which of
the two is known from the level alone.  `ERR_PTR(-ENOMEM)`, the failure value of
`new_radix_node`, is a pointer like any other until somebody follows it.

Every operation holds `radix_lock` (of the source, for a copy) from its start to
its end, so each one is a function of the tree.  The outcome `none` is a BUG, or
the fault of following NULL or an error value.
-/

namespace Starfish.RadixTree

def radixNodeBits : ℕ := 4

abbrev radixNodeSize : ℕ := 16

abbrev radixLevels : ℕ := 16

def enomem : ℤ := 12

abbrev Digit := Fin radixNodeSize

abbrev Word (V : Type) (n : ℕ) := Trie Digit V n

/-- `struct radix`, as far as the operations look at it. -/
structure Radix (V : Type) where
  root : Word V radixLevels

section

variable {V R σ ρ ι : Type} {n : ℕ}

/-! ## Nodes and loops -/

/-- `new_radix_node`, with the outcomes of the coming calls of `kzalloc`: all of
them fail once the list is used up. -/
def newRadixNode : List Bool → Word V (n + 1) × List Bool
  | true :: mem => (.node fun _ => .zero n, mem)
  | false :: mem => (.err, mem)
  | [] => (.err, [])

/-- A loop whose body may return from the function around it. -/
def forRet (body : ι → σ → Option (Option ρ × σ)) : List ι → σ → Option (Option ρ × σ)
  | [], s => some (none, s)
  | i :: is, s => do
    let (ret, s) ← body i s
    if ret.isSome then some (ret, s) else forRet body is s

/-! ## Insertion and lookup -/

/-- `new_radix`. -/
def newRadix : Radix V := ⟨.null⟩

/-- `init_radix`, which does not survive a failed allocation. -/
def initRadix (mem : List Bool) : Option (Radix V) :=
  let new : Word V radixLevels := (newRadixNode mem).1
  if new.isErr then none else some ⟨new⟩

/-- `index[i]`, the digit of a key for a level. -/
def index (key : BitVec 64) : ℕ → Digit
  | 0 => ⟨(key &&& 15#64).toNat, by
      have hle : (key &&& 15#64).toNat ≤ 15 := by simpa using Nat.and_le_right
      exact Nat.lt_succ_of_le hle⟩
  | i + 1 => index (key >>> radixNodeBits) i

/-- The part of `radix_add` behind the check of the root: from a node down to
the leaf level, where the value is stored. -/
def addWords (path : ℕ → Digit) (value : Option V) :
    (n : ℕ) → (Digit → Word V n) → List Bool → Option (ℤ × (Digit → Word V n) × List Bool)
  | 0, words, mem => some (0, Function.update words (path 0) (.value value), mem)
  | n + 1, words, mem =>
    let k := path (n + 1)
    let descend (child : Word V (n + 1)) (mem : List Bool) := do
      let (ret, below, mem) ← addWords path value n (← child.deref) mem
      some (ret, Function.update words k (.node below), mem)
    if (words k).isNull then
      let (new, mem) := newRadixNode mem
      if new.isErr then some (-enomem, words, mem) else descend new mem
    else
      descend (words k) mem

/-- `radix_add`. -/
def radixAdd (radix : Radix V) (key : BitVec 64) (value : Option V) (mem : List Bool) :
    Option (ℤ × Radix V) :=
  let descend (root : Word V radixLevels) (mem : List Bool) := do
    let (ret, below, _) ← addWords (index key) value _ (← root.deref) mem
    some (ret, ⟨.node below⟩)
  if radix.root.isNull then
    let (new, mem) := newRadixNode mem
    if new.isErr then some (-enomem, radix) else descend new mem
  else
    descend radix.root mem

/-- `radix_del`. -/
def radixDel (radix : Radix V) (key : BitVec 64) (mem : List Bool) : Option (ℤ × Radix V) :=
  radixAdd radix key none mem

/-- The part of `radix_get` behind the check of the root. -/
def getWords (path : ℕ → Digit) : (n : ℕ) → (Digit → Word V n) → Option (Option V)
  | 0, words => match words (path 0) with | .value v => some v
  | n + 1, words =>
    let k := path (n + 1)
    if (words k).isNull then some none
    else do getWords path n (← (words k).deref)

/-- `radix_get`. -/
def radixGet (radix : Radix V) (key : BitVec 64) : Option (Option V) :=
  if radix.root.isNull then some none
  else do getWords (index key) _ (← radix.root.deref)

/-! ## Traversal -/

/-- `prefix << RADIX_NODE_BITS | i`. -/
def append (pfx : BitVec 64) (i : Digit) : BitVec 64 := (pfx <<< radixNodeBits) ||| BitVec.ofNat 64 i

/-- `__radix_traverse` on a node of level `n + 1`.  The callback works on a state
of its own. -/
def traverseWords (fn : BitVec 64 → V → σ → σ) :
    (n : ℕ) → (Digit → Word V n) → BitVec 64 → σ → Option σ
  | 0, words, pfx, s => (List.finRange radixNodeSize).foldlM (fun s i =>
    match words i with
    | .value none => some s
    | .value (some v) => some (fn (append pfx i) v s)) s
  | n + 1, words, pfx, s => (List.finRange radixNodeSize).foldlM (fun s i =>
    if (words i).isNull then some s
    else do traverseWords fn n (← (words i).deref) (append pfx i) s) s

/-- `radix_traverse`. -/
def radixTraverse (fn : BitVec 64 → V → σ → σ) (radix : Radix V) (s : σ) : Option σ :=
  if radix.root.isNull then some s
  else do traverseWords fn _ (← radix.root.deref) 0 s

/-- `__radix_complex_traverse` on a node of level `n + 1`: a leaf is left with
the first result that is not NULL, any other node with the result of its first
child. -/
def complexWords (fn : BitVec 64 → V → σ → Option R × σ) :
    (n : ℕ) → (Digit → Word V n) → BitVec 64 → σ → Option (Option R × σ)
  | 0, words, pfx, s => do
    let (ret, s) ← forRet (fun i s =>
      match words i with
      | .value none => some (none, s)
      | .value (some v) =>
        let (res, s) := fn (append pfx i) v s
        if res.isSome then some (some res, s) else some (none, s))
      (List.finRange radixNodeSize) s
    some (ret.getD none, s)
  | n + 1, words, pfx, s => do
    let (ret, s) ← forRet (fun i s =>
      if (words i).isNull then some (none, s)
      else do
        let (res, s) ← complexWords fn n (← (words i).deref) (append pfx i) s
        some (some res, s))
      (List.finRange radixNodeSize) s
    some (ret.getD none, s)

/-- `radix_complex_traverse`. -/
def radixComplexTraverse (fn : BitVec 64 → V → σ → Option R × σ) (radix : Radix V) (s : σ) :
    Option (Option R × σ) :=
  if radix.root.isNull then some (none, s)
  else do complexWords fn _ (← radix.root.deref) 0 s

/-! ## Checksum -/

/-- `hash_page` -/
def hashPage (initial : BitVec 64) (page : List UInt8) : BitVec 64 :=
  page.foldl (fun initial b => initial * 307 + BitVec.ofNat 64 b.toNat + 1) initial

/-- `__radix_checksum` on a node of level `n + 1`. -/
def checksumWords (content : V → List UInt8) :
    (n : ℕ) → (Digit → Word V n) → BitVec 64 → Option (BitVec 64)
  | 0, words, initial => (List.finRange radixNodeSize).foldlM (fun initial i =>
    match words i with
    | .value none => some initial
    | .value (some v) => some (hashPage initial (content v))) initial
  | n + 1, words, initial => (List.finRange radixNodeSize).foldlM (fun initial i =>
    if (words i).isNull then some initial
    else do checksumWords content n (← (words i).deref) initial) initial

/-- `radix_checksum`, which does not look whether there is a root. -/
def radixChecksum (content : V → List UInt8) (tree : Radix V) : Option (BitVec 64) := do
  checksumWords content _ (← tree.root.deref) 0

end

/-! ## Deep copy -/

/-- The memory of a copy: the outcomes of the coming calls of `kzalloc`, the
pages that `get_pages` is going to hand out, and what the pages hold. -/
structure PageMem (C : Type) where
  nodes : List Bool
  free : List ℕ
  content : ℕ → C

namespace PageMem

variable {C : Type} (m : PageMem C)

/-- `get_pages(0, ..)`. -/
def getPages : Option (ℕ × PageMem C) :=
  match m.free with
  | [] => none
  | page :: free => some (page, { m with free := free })

/-- `pagecpy`. -/
def pagecpy (dst src : ℕ) : PageMem C :=
  { m with content := Function.update m.content dst (m.content src) }

/-- `kfree` of a page. -/
def kfree (page : ℕ) : PageMem C := { m with free := page :: m.free }

end PageMem

variable {C : Type}

/-- One word of the leaf level in `__radix_deep_copy`.  `BUG_ON(!newpage)` is the
`none` of `get_pages`. -/
def copyValue (phyAlloc : Bool) (src dst : Option ℕ) (m : PageMem C) :
    Option (Option ℕ × PageMem C) :=
  match src, dst with
  | none, none => some (none, m)
  | none, some pa => some (none, m.kfree pa)
  | some page, some pa => some (some pa, m.pagecpy pa page)
  | some page, none =>
    if phyAlloc then do
      let (newpage, m) ← m.getPages
      some (some newpage, m.pagecpy newpage page)
    else some (some page, m)

/-- The loop body of `__radix_deep_copy` on the leaf level.  It never returns. -/
def copyLeaf (phyAlloc : Bool) (src : Word ℕ 1) (i : Digit) (s : Word ℕ 1 × PageMem C) :
    Option (Option ℤ × Word ℕ 1 × PageMem C) := do
  let values ← src.deref
  let copies ← s.1.deref
  match values i, copies i with
  | .value v, .value w => do
    let (w, m) ← copyValue phyAlloc v w s.2
    some (none, ← s.1.setWord i (.value w), m)

/-- The loop body of `__radix_deep_copy` on the other levels, with the recursive
call. -/
def copyChild {n : ℕ}
    (copy : Word ℕ (n + 1) → Word ℕ (n + 1) → PageMem C → Option (ℤ × Word ℕ (n + 1) × PageMem C))
    (src : Word ℕ (n + 2)) (i : Digit) (s : Word ℕ (n + 2) × PageMem C) :
    Option (Option ℤ × Word ℕ (n + 2) × PageMem C) := do
  let children ← src.deref
  if (children i).isNull then some (none, s)
  else
    let (new, nodes) := newRadixNode s.2.nodes
    let m := { s.2 with nodes := nodes }
    if new.isErr then some (some (-enomem), s.1, m)
    else do
      let dst ← s.1.setWord i new
      let (err, child, m) ← copy (children i) new m
      let dst ← dst.setWord i child
      some (if err ≠ 0 then some err else none, dst, m)

/-- `__radix_deep_copy` on nodes of level `n + 1`. -/
def deepCopy (phyAlloc : Bool) :
    (n : ℕ) → (src dst : Word ℕ (n + 1)) → PageMem C → Option (ℤ × Word ℕ (n + 1) × PageMem C)
  | 0, src, dst, m => do
    let (ret, dst, m) ← forRet (copyLeaf phyAlloc src) (List.finRange radixNodeSize) (dst, m)
    some (ret.getD 0, dst, m)
  | n + 1, src, dst, m => do
    let (ret, dst, m) ← forRet (copyChild (deepCopy phyAlloc n) src)
      (List.finRange radixNodeSize) (dst, m)
    some (ret.getD 0, dst, m)

/-- `radix_deep_copy`.  The return value of a failed allocation of the root is
overwritten at once, and its failure value becomes the root. -/
def radixDeepCopy (src dst : Radix ℕ) (phyAlloc : Bool) (m : PageMem C) :
    Option (ℤ × Radix ℕ × PageMem C) :=
  if src.root.isNull then some (0, dst, m)
  else do
    let (root, nodes) : Word ℕ radixLevels × List Bool :=
      if dst.root.isNull then newRadixNode m.nodes else (dst.root, m.nodes)
    let (r, root, m) ← deepCopy phyAlloc _ src.root root { m with nodes := nodes }
    some (r, ⟨root⟩, m)

end Starfish.RadixTree
