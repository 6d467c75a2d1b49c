import Starfish.Radix.Map

/-!
# Starfish.Radix.DeepCopy

`radix_deep_copy`.  Every subtree of the source gets a new node in the
destination, so that below the root nothing of the old destination is left or
read.  What is left of it are the subtrees of the old root where the source has
none.
-/

namespace Starfish.RadixTree

open Option Trie Function

variable {C : Type} {phyAlloc : Bool} {n : ℕ} {m m₁ m₂ m' : PageMem C} {used used₁ used₂ : List ℕ}

attribute [local simp] copyLeaf PageMem.getPages PageMem.pagecpy copyValue

/-! ## Pages -/

/-- The pages `used` have been taken from the free ones, and no other page was
written. -/
structure Took (m m' : PageMem C) (used : List ℕ) : Prop where
  free : m.free = used ++ m'.free
  content : ∀ a, a ∉ used → m'.content a = m.content a

theorem Took.refl (m : PageMem C) (nodes : List Bool) : Took m { m with nodes := nodes } [] where
  free := rfl
  content := fun _ _ => rfl

theorem Took.trans (h1 : Took m m₁ used₁) (h2 : Took m₁ m₂ used₂) : Took m m₂ (used₁ ++ used₂) where
  free := by rw [h1.free, h2.free, List.append_assoc]
  content := by
    intro a ha
    simp only [List.mem_append, not_or] at ha
    rw [h2.content a ha.2, h1.content a ha.1]

theorem Took.nodup (h : Took m m' used) (hm : m.free.Nodup) : m'.free.Nodup := by
  rw [h.free] at hm
  exact hm.of_append_right

/-- The value `a` of a copy for the value `p` of the source: a page of its own
with the same content, or the same page. -/
def IsCopy (phyAlloc : Bool) (m m' : PageMem C) (used : List ℕ) (p a : ℕ) : Prop :=
  if phyAlloc then a ∈ used ∧ m'.content a = m.content p else a = p

/-- `c` holds copies of the values of `t`, and no others. -/
def Copies (phyAlloc : Bool) (m m' : PageMem C) (used : List ℕ) (t c : Word ℕ n) : Prop :=
  ∀ q, (t.find q = none → c.find q = none) ∧
    ∀ p, t.find q = some p → ∃ a, c.find q = some a ∧ IsCopy phyAlloc m m' used p a

/-- The values of `t` are not among the free pages. -/
def Outside (m : PageMem C) (t : Word ℕ n) : Prop := ∀ q p, t.find q = some p → p ∉ m.free

theorem Outside.took (h : Outside m t) (ht : Took m m' used) : Outside m' t := by
  intro q p hp hfree
  exact h q p hp (by simp [ht.free, hfree])

variable {words : Digit → Word ℕ n}

theorem Outside.word (h : Outside m (.node words)) (d : Digit) : Outside m (words d) := by
  intro q p hp
  refine h (update q n d) p ?_
  have hpath : ∀ i < n, update q n d i = q i := fun i hi =>
    update_of_ne (Nat.ne_of_lt hi) _ _
  rw [find_node, update_self, find_congr hpath, hp]

/-- A copy stays one when pages are taken before and after it is made. -/
theorem Copies.widen (h : Copies phyAlloc m₁ m₂ used₁ t c)
    (hb : Took m m₁ before) (ht : Took m₁ m₂ used₁) (ha : Took m₂ m' after)
    (hm : m.free.Nodup) (hout : Outside m t) :
    Copies phyAlloc m m' (before ++ used₁ ++ after) t c := by
  refine fun q => ⟨(h q).1, fun p hp => ?_⟩
  obtain ⟨a, hfind, hcopy⟩ := (h q).2 p hp
  refine ⟨a, hfind, ?_⟩
  cases phyAlloc with
  | false => exact hcopy
  | true =>
    obtain ⟨hused, hcontent⟩ : a ∈ used₁ ∧ m₂.content a = m₁.content p := hcopy
    have hp' : p ∉ before := fun hin => hout q p hp (by simp [hb.free, hin])
    have hafter : a ∉ after := by
      have hsplit : m₁.free = used₁ ++ (after ++ m'.free) := by rw [ht.free, ha.free]
      have hdisj := List.disjoint_of_nodup_append (hsplit ▸ hb.nodup hm)
      exact fun hin => hdisj hused (List.mem_append_left _ hin)
    refine ⟨by simp [hused], ?_⟩
    rw [ha.content a hafter, hcontent, hb.content p hp']

/-! ## One word -/

/-- What one round of the loop does to the word `c` of the destination, with the
word `t` of the source. -/
structure WordStep (phyAlloc : Bool) (m m' : PageMem C) (used : List ℕ) (ret : Option ℤ)
    (t c w : Word ℕ n) : Prop where
  took : Took m m' used
  cause : ret = none ∨ ret = some (-enomem)
  valid : c.Valid → w.Valid
  kept : ret = none → t = .zero n → w = c
  copies : ret = none → t ≠ .zero n → Copies phyAlloc m m' used t w

variable {ret : Option ℤ}

/-! ## The two levels -/

/-- A round on the leaf level, into a leaf that holds nothing yet. -/
theorem copyLeaf_step {words copies : Digit → Word ℕ 0} (hnew : copies d = .value none)
    (h : copyLeaf phyAlloc (.node words) d (.node copies, m) = some (ret, s')) :
    ∃ w m₁ used, s' = (.node (update copies d w), m₁) ∧
      WordStep phyAlloc m m₁ used ret (words d) (copies d) w := by
  cases hv : words d with
  | value v =>
    cases v with
    | none =>
      obtain ⟨rfl, rfl⟩ : none = ret ∧ (.node (update copies d (.value none)), m) = s' := by
        simpa [hv, hnew] using h
      exact ⟨_, m, [], rfl, .refl m m.nodes, .inl rfl, fun _ => trivial,
        fun _ _ => hnew.symm, fun _ hne => absurd rfl hne⟩
    | some p =>
      cases phyAlloc with
      | false =>
        obtain ⟨rfl, rfl⟩ : none = ret ∧ (.node (update copies d (.value (some p))), m) = s' := by
          simpa [hv, hnew] using h
        refine ⟨_, m, [], rfl, .refl m m.nodes, .inl rfl, fun _ => trivial,
          by simp [zero], fun _ _ => ?_⟩
        simp [Copies, IsCopy]
      | true =>
        cases hfree : m.free with
        | nil => simp [hv, hnew, hfree] at h
        | cons page rest =>
          obtain ⟨rfl, rfl⟩ : none = ret ∧ (.node (update copies d (.value (some page))),
                PageMem.pagecpy { m with free := rest } page p) = s' := by
            simpa [hv, hnew, hfree] using h
          refine ⟨_, _, [page], rfl, ⟨hfree, fun a ha => ?_⟩, .inl rfl, fun _ => trivial,
            by simp [zero], fun _ _ => ?_⟩
          · have hne : a ≠ page := by simpa using ha
            simp [hne]
          · simp [Copies, IsCopy]

/-- A copy into a new node. -/
def CopiesNew (phyAlloc : Bool) (n : ℕ)
    (copy : Word ℕ (n + 1) → Word ℕ (n + 1) → PageMem C →
      Option (ℤ × Word ℕ (n + 1) × PageMem C)) : Prop :=
  ∀ (words : Digit → Word ℕ n) (m : PageMem C) ret dst' m', (∀ d, (words d).Valid) →
    m.free.Nodup → Outside m (.node words) →
    copy (.node words) (.node fun _ => .zero n) m = some (ret, dst', m') →
    ∃ used, dst'.Valid ∧ Took m m' used ∧ (ret = 0 ∨ ret = -enomem) ∧
      (ret = 0 → Copies phyAlloc m m' used (.node words) dst')

/-- A round on the other levels. -/
theorem copyChild_step {copy : Word ℕ (n + 1) → Word ℕ (n + 1) → PageMem C →
      Option (ℤ × Word ℕ (n + 1) × PageMem C)} (hcopy : CopiesNew phyAlloc n copy)
    {words copies : Digit → Word ℕ (n + 1)} (hw : (words d).Valid) (hm : m.free.Nodup)
    (hout : Outside m (words d)) (h : copyChild copy (.node words) d (.node copies, m) = some (ret, s')) :
    ∃ w m₁ used, s' = (.node (update copies d w), m₁) ∧
      WordStep phyAlloc m m₁ used ret (words d) (copies d) w := by
  obtain hnull | ⟨children, hchild, hc⟩ := hw.null_or_node
  · obtain ⟨rfl, rfl⟩ : none = ret ∧ (.node copies, m) = s' := by simpa [copyChild, hnull] using h
    exact ⟨copies d, m, [], by simp, .refl m m.nodes, .inl rfl, id, fun _ _ => rfl,
      fun _ hne => absurd hnull hne⟩
  · obtain ⟨nodes, hnew | hnew⟩ := newRadixNode_cases (V := ℕ) (n := n) m.nodes
    · obtain ⟨rfl, rfl⟩ : some (-enomem) = ret ∧ (.node copies, { m with nodes := nodes }) = s' := by
        simpa [copyChild, hchild, hnew] using h
      exact ⟨copies d, _, [], by simp, .refl m nodes, .inr rfl, id, by simp, by simp⟩
    · simp only [copyChild, deref_node, hchild, hnew, isNull_node, isErr_node,
        setWord_node, bind_eq_bind, bind_some, Bool.false_eq_true, if_false,
        bind_eq_some_iff] at h
      obtain ⟨⟨err, child, m₁⟩, hrec, heq⟩ := h
      obtain ⟨used, hvalid, htook, herr, hcopies⟩ := hcopy children { m with nodes := nodes } err
        child m₁ hc hm (hchild ▸ hout) hrec
      obtain ⟨rfl, rfl⟩ : (if err ≠ 0 then some err else none) = ret ∧
          (.node (update copies d child), m₁) = s' := by
        simpa using heq
      have htook' : Took m m₁ used := (Took.refl m nodes).trans htook
      refine ⟨child, m₁, used, rfl, htook', ?_, fun _ => hvalid, fun _ hzero => ?_, fun hnone _ => ?_⟩
      · obtain rfl | rfl := herr
        · exact .inl rfl
        · exact .inr rfl
      · simp [hchild, zero] at hzero
      · have hzero : err = 0 := by simpa using hnone
        rw [hchild]
        exact hcopies hzero

section

variable (Ready : Word ℕ n → Prop) {body : Digit → Word ℕ (n + 1) × PageMem C →
    Option (Option ℤ × Word ℕ (n + 1) × PageMem C)}
  (hbody : ∀ d copies (m : PageMem C) ret s', m.free.Nodup → Outside m (words d) →
    Ready (copies d) → body d (.node copies, m) = some (ret, s') →
    ∃ w m₁ used, s' = (.node (update copies d w), m₁) ∧
      WordStep phyAlloc m m₁ used ret (words d) (copies d) w)
include hbody

/-- The rounds of a loop, each of them with its own word. -/
theorem forRet_words (is : List Digit) (his : is.Nodup) (copies : Digit → Word ℕ n)
    (hm : m.free.Nodup) (hout : Outside m (.node words))
    (hready : ∀ d ∈ is, Ready (copies d)) (h : forRet body is (.node copies, m) = some (ret, s')) :
    ∃ copies' m' used, s' = (.node copies', m') ∧ Took m m' used ∧
      (ret = none ∨ ret = some (-enomem)) ∧ (∀ d ∉ is, copies' d = copies d) ∧
      (∀ d ∈ is, (copies d).Valid → (copies' d).Valid) ∧
      (ret = none → ∀ d ∈ is, (words d = .zero n → copies' d = copies d) ∧
        (words d ≠ .zero n → Copies phyAlloc m m' used (words d) (copies' d))) := by
  induction is generalizing copies m with
  | nil =>
    obtain ⟨rfl, rfl⟩ : none = ret ∧ (.node copies, m) = s' := by simpa [forRet] using h
    exact ⟨copies, m, [], rfl, .refl m m.nodes, .inl rfl, by simp, by simp, by simp⟩
  | cons d is ih =>
    obtain ⟨hd, his⟩ := List.nodup_cons.mp his
    rw [forRet, bind_eq_bind, bind_eq_some_iff] at h
    obtain ⟨⟨ret1, s1⟩, hround, hrest⟩ := h
    obtain ⟨w, m₁, used₁, rfl, hstep⟩ := hbody d copies m ret1 s1 hm (hout.word d)
      (hready d (by simp)) hround
    have hother {e : Digit} (he : e ∈ is) : update copies d w e = copies e :=
      update_of_ne (fun heq : e = d => hd (heq ▸ he)) _ _
    obtain rfl | rfl := hstep.cause
    · -- the loop goes on with the other words
      obtain ⟨copies', m', used₂, rfl, htook, hret, hkeep, hvalid, hcopies⟩ := ih his
        (update copies d w) (hstep.took.nodup hm) (hout.took hstep.took)
        (fun e he => by rw [hother he]; exact hready e (by simp [he])) (by simpa using hrest)
      have hword : copies' d = w := by simpa using hkeep d hd
      refine ⟨copies', m', used₁ ++ used₂, rfl, hstep.took.trans htook, hret, ?_, ?_, ?_⟩
      · intro e he
        simp only [List.mem_cons, not_or] at he
        rw [hkeep e he.2, update_of_ne he.1]
      · intro e he hv
        obtain rfl | he := List.mem_cons.mp he
        · exact hword ▸ hstep.valid hv
        · exact hvalid e he (hother he ▸ hv)
      · intro hnone e he
        obtain rfl | he := List.mem_cons.mp he
        · refine ⟨fun hzero => hword.trans (hstep.kept rfl hzero), fun hne => ?_⟩
          rw [hword]
          exact (hstep.copies rfl hne).widen (.refl m m.nodes) hstep.took htook hm (hout.word e)
        · refine ⟨fun hzero => ?_, fun hne => ?_⟩
          · exact ((hcopies hnone e he).1 hzero).trans (hother he)
          · have hwide := ((hcopies hnone e he).2 hne).widen hstep.took htook
              (.refl m' m'.nodes) hm (hout.word e)
            simpa using hwide
    · -- the loop is left
      obtain ⟨rfl, rfl⟩ : some (-enomem) = ret ∧ (.node (update copies d w), m₁) = s' := by
        simpa using hrest
      refine ⟨_, m₁, used₁, rfl, hstep.took, .inr rfl, ?_, ?_, by simp⟩
      · intro e he
        simp only [List.mem_cons, not_or] at he
        exact update_of_ne he.1 _ _
      · intro e he hv
        obtain rfl | he := List.mem_cons.mp he
        · simpa using hstep.valid hv
        · rw [hother he]
          exact hv

theorem deepCopy_loop (copies : Digit → Word ℕ n) (hready : ∀ d, Ready (copies d)) {ret : ℤ}
    (hm : m.free.Nodup) (hout : Outside m (.node words))
    (h : (do
      let (ret, dst, m) ← forRet body (List.finRange 16) (.node copies, m)
      some (ret.getD 0, dst, m)) = some (ret, dst', m')) :
    ∃ copies' used, dst' = .node copies' ∧ Took m m' used ∧ (ret = 0 ∨ ret = -enomem) ∧
      (∀ d, (copies d).Valid → (copies' d).Valid) ∧
      (ret = 0 → ∀ d, (words d = .zero n → copies' d = copies d) ∧
        (words d ≠ .zero n → Copies phyAlloc m m' used (words d) (copies' d))) := by
  simp only [bind_eq_bind, bind_eq_some_iff] at h
  obtain ⟨⟨ret1, s'⟩, hloop, heq⟩ := h
  obtain ⟨copies', m₁, used, rfl, htook, hret, -, hvalid, hcopies⟩ := forRet_words Ready hbody
    _ (List.nodup_finRange 16) copies hm hout (fun d _ => hready d) hloop
  obtain ⟨rfl, rfl, rfl⟩ : ret1.getD 0 = ret ∧ .node copies' = dst' ∧ m₁ = m' := by
    simpa using heq
  refine ⟨copies', used, rfl, htook, ?_, fun d => hvalid d (by simp), ?_⟩
  · obtain rfl | rfl := hret
    · exact .inl rfl
    · exact .inr rfl
  · intro h0 d
    obtain rfl | rfl := hret
    · exact hcopies rfl d (by simp)
    · simp [enomem] at h0

end

/-- `__radix_deep_copy` into a new node. -/
theorem deepCopy_new (phyAlloc : Bool) (n : ℕ) :
    CopiesNew phyAlloc n (deepCopy phyAlloc n (C := C)) := by
  -- from the words to the node
  have hnode {n : ℕ} {words copies' : Digit → Word ℕ n} {m m' : PageMem C} {used : List ℕ}
      (h : ∀ d, (words d = .zero n → copies' d = .zero n) ∧
        (words d ≠ .zero n → Copies phyAlloc m m' used (words d) (copies' d))) :
      Copies phyAlloc m m' used (.node words) (.node copies') := by
    intro q
    by_cases hzero : words (q n) = .zero n
    · simp [hzero, (h (q n)).1 hzero]
    · exact (h (q n)).2 hzero q
  induction n with
  | zero =>
    intro words m ret dst' m' hw hm hout h
    obtain ⟨copies', used, rfl, htook, hret, hvalid, hcopies⟩ := deepCopy_loop
      (fun c => c = .value none) (fun d copies m ret s' _ _ hready h => copyLeaf_step hready h)
      (fun _ => .zero 0) (fun _ => rfl) hm hout h
    exact ⟨used, fun d => hvalid d trivial, htook, hret, fun h0 => hnode (hcopies h0)⟩
  | succ n ih =>
    intro words m ret dst' m' hw hm hout h
    obtain ⟨copies', used, rfl, htook, hret, hvalid, hcopies⟩ := deepCopy_loop
      (fun _ => True) (fun d copies m ret s' hm hout _ h => copyChild_step ih (hw d) hm hout h)
      (fun _ => .zero (n + 1)) (fun _ => trivial) hm hout h
    exact ⟨used, fun d => hvalid d trivial, htook, hret, fun h0 => hnode (hcopies h0)⟩

/-! ## The root -/

/-- `__radix_deep_copy` at the root, into any node. -/
theorem deepCopy_root {words copies : Digit → Word ℕ (n + 1)} {ret : ℤ} {dst' : Word ℕ (n + 2)}
    (hw : ∀ d, (words d).Valid) (hm : m.free.Nodup) (hout : Outside m (.node words))
    (h : deepCopy phyAlloc (n + 1) (.node words) (.node copies) m = some (ret, dst', m')) :
    ∃ copies' used, dst' = .node copies' ∧ Took m m' used ∧ (ret = 0 ∨ ret = -enomem) ∧
      (∀ d, (copies d).Valid → (copies' d).Valid) ∧
      (ret = 0 → ∀ d, (words d = .null → copies' d = copies d) ∧
        (words d ≠ .null → Copies phyAlloc m m' used (words d) (copies' d))) :=
  deepCopy_loop (fun _ => True)
    (fun d _ _ _ _ hm hout _ h => copyChild_step (deepCopy_new phyAlloc n) (hw d) hm hout h)
    copies (fun _ => trivial) hm hout h

theorem forRet_inv {σ ρ ι : Type} {body : ι → σ → Option (Option ρ × σ)} {P : σ → Prop}
    (hbody : ∀ i s ret s', P s → body i s = some (ret, s') → P s') (is : List ι) {s s' : σ}
    {ret : Option ρ} (hs : P s) (h : forRet body is s = some (ret, s')) : P s' := by
  induction is generalizing s with
  | nil =>
    obtain ⟨-, rfl⟩ : none = ret ∧ s = s' := by simpa [forRet] using h
    exact hs
  | cons i is ih =>
    rw [forRet, bind_eq_bind, bind_eq_some_iff] at h
    obtain ⟨⟨ret1, s1⟩, hround, hrest⟩ := h
    have hs1 := hbody i s ret1 s1 hs hround
    cases ret1 with
    | none => exact ih hs1 (by simpa using hrest)
    | some r =>
      obtain ⟨-, rfl⟩ : some r = ret ∧ s1 = s' := by simpa using hrest
      exact hs1

/-- An error value is never replaced, since nothing can be stored behind it. -/
theorem deepCopy_err {src dst' : Word ℕ (n + 2)} {ret : ℤ}
    (h : deepCopy phyAlloc (n + 1) src .err m = some (ret, dst', m')) : dst' = .err := by
  simp only [deepCopy, bind_eq_bind, bind_eq_some_iff] at h
  obtain ⟨⟨ret1, w, m₁⟩, hloop, heq⟩ := h
  have herr : w = .err := by
    refine forRet_inv (P := fun s => s.1 = .err) ?_ _ rfl hloop
    rintro i ⟨_, m⟩ ret ⟨w, m₁⟩ rfl hround
    simp only [copyChild, bind_eq_bind, bind_eq_some_iff] at hround
    obtain ⟨children, -, hround⟩ := hround
    split at hround
    · obtain ⟨-, rfl, -⟩ : none = ret ∧ .err = w ∧ m = m₁ := by simpa using hround
      rfl
    · split at hround
      · obtain ⟨-, rfl, -⟩ : some (-enomem) = ret ∧ .err = w ∧ _ = m₁ := by simpa using hround
        rfl
      · simp [setWord, deref] at hround
  obtain ⟨-, rfl, -⟩ : ret1.getD 0 = ret ∧ w = dst' ∧ m₁ = m' := by simpa using heq
  exact herr

/-! ## `radix_deep_copy` -/

/-- The destination has a value exactly where the source has one, and it is the
copy of that value. -/
def HasCopy (phyAlloc : Bool) (m m' : PageMem C) (src dst : Radix ℕ) : Prop :=
  ∀ k, (radixGet src k = some none → radixGet dst k = some none) ∧
    ∀ p, radixGet src k = some (some p) →
      ∃ a, radixGet dst k = some (some a) ∧ IsCopy phyAlloc m m' m.free p a

/-- The root of the tree has a child for the first digit of the key. -/
def HasChild (r : Radix ℕ) (k : BitVec 64) : Prop :=
  ∃ words, r.root = .node words ∧ words (index k 15) ≠ .null

/-- Where the source has no child, the destination has no values. -/
def NoStale (src dst : Radix ℕ) : Prop := ∀ k, ¬ HasChild src k → radixGet dst k = some none

/-- The destination has no root, and the allocation of one fails. -/
@[simp] def RootFails (src dst : Radix ℕ) (m : PageMem C) : Prop :=
  src.root.isNull = false ∧ dst.root.isNull = true ∧
    (newRadixNode m.nodes : Word ℕ radixLevels × List Bool).1.isErr = true

theorem IsCopy.mono (h : IsCopy phyAlloc m m' used p a) (hsub : used ⊆ used₁) :
    IsCopy phyAlloc m m' used₁ p a := by
  cases phyAlloc with
  | false => exact h
  | true => exact ⟨hsub h.1, h.2⟩

/-- A copy into a root node succeeds with a copy of the source if and only if
there is nothing stale in the node. -/
theorem hasCopy_iff_noStale {words copies copies' : Digit → Word ℕ 15}
    (hw : ∀ d, (words d).Valid) (hc : ∀ d, (copies' d).Valid) (hd : dst.root.Valid)
    (hsrc : src.root = .node words) (hdst : ∀ q, dst.root.find q = (Trie.node copies).find q)
    (htook : Took m m' used)
    (h : ∀ d, (words d = .null → copies' d = copies d) ∧
      (words d ≠ .null → Copies phyAlloc m m' used (words d) (copies' d))) :
    HasCopy phyAlloc m m' src ⟨.node copies'⟩ ↔ NoStale src dst := by
  have hs : src.root.Valid := hsrc ▸ hw
  have hchild (k : BitVec 64) : HasChild src k ↔ words (index k 15) ≠ .null := by
    simp [HasChild, hsrc]
  have hgetSrc (k : BitVec 64) : radixGet src k = some ((words (index k 15)).find (index k)) := by
    rw [radixGet_eq hs, hsrc, find_node]
  have hgetDst (k : BitVec 64) : radixGet dst k = some ((copies (index k 15)).find (index k)) := by
    rw [radixGet_eq hd, hdst, find_node]
  have hget' (k : BitVec 64) : radixGet ⟨.node copies'⟩ k =
      some ((copies' (index k 15)).find (index k)) := by
    rw [radixGet_eq (r := ⟨.node copies'⟩) hc, find_node]
  simp only [HasCopy, NoStale, hchild, hgetSrc, hgetDst, hget', some_inj, not_not]
  constructor
  · intro hcopy k hnull
    rw [← (h (index k 15)).1 hnull]
    exact (hcopy k).1 (by simp [hnull])
  · intro hstale k
    by_cases hnull : words (index k 15) = .null
    · simpa [hnull, (h (index k 15)).1 hnull] using hstale k hnull
    · have hcopies := (h (index k 15)).2 hnull (index k)
      refine ⟨hcopies.1, fun p hp => ?_⟩
      obtain ⟨a, ha, hcopy⟩ := hcopies.2 p hp
      exact ⟨a, ha, hcopy.mono (by simp [htook.free])⟩

theorem exists_index (q : ℕ → Digit) : ∃ k : BitVec 64, ∀ i < radixLevels, index k i = q i := by
  obtain ⟨k, hk, hq⟩ := exists_digits q radixLevels
  refine ⟨BitVec.ofNat 64 k, fun i hi => ?_⟩
  have hk' : k < 2 ^ 64 := hk
  rw [index_eq, BitVec.toNat_ofNat, Nat.mod_eq_of_lt hk']
  exact hq i hi

theorem outside_of_radixGet (hr : r.root.Valid)
    (h : ∀ k p, radixGet r k = some (some p) → p ∉ m.free) : Outside m r.root := by
  intro q p hp
  obtain ⟨k, hk⟩ := exists_index q
  refine h k p ?_
  rw [radixGet_eq hr, find_congr hk, hp]

/-- A call of `radix_deep_copy` that returns has done what it should, that is,
the destination holds a copy of the source if it has succeeded and no error
value if it has failed, if and only if the allocation of a missing root did not
fail and, on success, the destination had no values where the root of the source
has no child. -/
theorem radix_deep_copy_correct_iff (src dst : Radix ℕ) (phyAlloc : Bool) (m m' : PageMem C)
    (ret : ℤ) (dst' : Radix ℕ) (hsrc : src.root.Valid) (hdst : dst.root.Valid)
    (hfree : m.free.Nodup) (hpages : ∀ k p, radixGet src k = some (some p) → p ∉ m.free)
    (h : radixDeepCopy src dst phyAlloc m = some (ret, dst', m')) :
    ((ret = 0 → HasCopy phyAlloc m m' src dst') ∧ (ret ≠ 0 → dst'.root.Valid)) ↔
      (¬ RootFails src dst m ∧ (ret = 0 → NoStale src dst)) := by
  obtain hnull | ⟨words, hroot, hw⟩ := hsrc.null_or_node
  · -- nothing is done
    obtain ⟨rfl, rfl, rfl⟩ : 0 = ret ∧ dst = dst' ∧ m = m' := by
      simpa [radixDeepCopy, hnull] using h
    simp [HasCopy, NoStale, HasChild, radixGet, hnull]
  · have hout : Outside m (.node words) := hroot ▸ outside_of_radixGet hsrc hpages
    -- the copy into the node that is or becomes the root
    have hnode (copies : Digit → Word ℕ 15) (nodes : List Bool) (root : Word ℕ 16)
        (hc : ∀ d, (copies d).Valid) (hfind : ∀ q, dst.root.find q = (node copies).find q)
        (hok : ¬ RootFails src dst m) (hdst' : dst' = ⟨root⟩)
        (hcopy : deepCopy phyAlloc 15 (.node words) (.node copies) { m with nodes := nodes } =
          some (ret, root, m')) :
        ((ret = 0 → HasCopy phyAlloc m m' src dst') ∧ (ret ≠ 0 → dst'.root.Valid)) ↔
          (¬ RootFails src dst m ∧ (ret = 0 → NoStale src dst)) := by
      obtain ⟨copies', used, rfl, htook, -, hvalid, hcopies⟩ := deepCopy_root
        (m := { m with nodes := nodes }) hw hfree hout hcopy
      subst hdst'
      have hvalid' : ∀ d, (copies' d).Valid := fun d => hvalid d (hc d)
      have hiff (h0 : ret = 0) : HasCopy phyAlloc m m' src ⟨.node copies'⟩ ↔ NoStale src dst :=
        hasCopy_iff_noStale hw hvalid' hdst hroot hfind ((Took.refl m nodes).trans htook)
          (hcopies h0)
      constructor
      · exact fun hleft => ⟨hok, fun h0 => (hiff h0).mp (hleft.1 h0)⟩
      · exact fun hright => ⟨fun h0 => (hiff h0).mpr (hright.2 h0), fun _ => hvalid'⟩
    simp only [radixDeepCopy, hroot, isNull_node, Bool.false_eq_true, if_false,
      bind_eq_bind, bind_eq_some_iff, some.injEq, Prod.mk.injEq,
      Prod.exists] at h
    obtain ⟨ret1, root, m₁, hcopy, rfl, rfl, rfl⟩ := h
    obtain hnull | ⟨copies, hcopies, hc⟩ := hdst.null_or_node
    · obtain ⟨nodes, hnew | hnew⟩ := newRadixNode_cases (V := ℕ) (n := 15) m.nodes
      · -- the error value is the root now
        have hcopy' : deepCopy phyAlloc (14 + 1) (.node words) .err { m with nodes := nodes } =
            some (ret1, root, m₁) := by simpa [hnull, hnew] using hcopy
        obtain rfl := deepCopy_err hcopy'
        have hfails : RootFails src dst m := by simp [hroot, hnull, hnew]
        have hget (k : BitVec 64) : radixGet (⟨.err⟩ : Radix ℕ) k = none := rfl
        refine iff_of_false (fun hleft => ?_) fun hright => hright.1 hfails
        by_cases h0 : ret1 = 0
        · cases hk : radixGet src 0 with
          | none => simp [radixGet_eq hsrc] at hk
          | some o =>
            cases o with
            | none => simpa [hget] using (hleft.1 h0 0).1 hk
            | some p => simpa [hget] using (hleft.1 h0 0).2 p hk
        · exact hleft.2 h0
      · refine hnode (fun _ => .zero 15) nodes root (by simp) (by simp [hnull]) ?_ rfl ?_
        · simp [hroot, hnull, hnew]
        · simpa [hnull, hnew] using hcopy
    · refine hnode copies m.nodes root hc (by simp [hcopies]) ?_ rfl ?_
      · simp [hcopies]
      · simpa [hcopies] using hcopy

/-- The tree with one value. -/
def oneValue (key : BitVec 64) (page : ℕ) : Option (Radix ℕ) :=
  (radixAdd newRadix key (some page) (List.replicate 16 true)).map Prod.snd

/-- A copy that succeeds and keeps a key of the destination that the source does
not have, and a copy that fails and leaves an error value as the root. -/
theorem deep_copy_keeps_stale_key_and_installs_error :
    (do
      let (ret, dst, _) ← radixDeepCopy (← oneValue 0 1) (← oneValue 0x1000000000000000 2) false
        (⟨List.replicate 16 true, [], fun _ => ()⟩ : PageMem Unit)
      some (ret, ← radixGet (← oneValue 0 1) 0x1000000000000000,
        ← radixGet dst 0x1000000000000000)) = some (0, none, some 2) ∧
    (do
      let (ret, dst, _) ← radixDeepCopy (← oneValue 0 1) newRadix false
        (⟨[], [], fun _ => ()⟩ : PageMem Unit)
      some (ret, dst.root.isErr)) = some (-enomem, true) := by
  decide +kernel

theorem oneValue_spec (key : BitVec 64) (page : ℕ) (h : oneValue key page = some r) :
    r.root.Valid ∧ ∀ k p, radixGet r k = some (some p) → p = page := by
  have hempty : (newRadix : Radix ℕ).root.Valid := valid_null
  obtain ⟨ret, r', heq, hvalid, hadded⟩ := radixAdd_spec key (some page) (List.replicate 16 true)
    hempty
  rw [oneValue, heq] at h
  obtain rfl : r' = r := by simpa using h
  refine ⟨hvalid, fun k p hp => ?_⟩
  have hnone : radixGet (newRadix : Radix ℕ) k = some none := rfl
  obtain ⟨-, hget⟩ | ⟨-, hget, -⟩ := hadded.radixGet hempty hvalid
  · rw [hget, hnone] at hp
    by_cases hk : k = key
    · simpa [hk, eq_comm] using hp
    · simp [hk] at hp
  · rw [hget, hnone] at hp
    simp at hp

/-- The copy of a tree with one value, the page 1, into a new tree. -/
theorem radix_deep_copy_correct_one_value : ∃ src dst' m', oneValue 0 1 = some src ∧
    radixDeepCopy src newRadix true ⟨List.replicate 16 true, [7], id⟩ = some (0, dst', m') ∧
    HasCopy true ⟨List.replicate 16 true, [7], id⟩ m' src dst' := by
  have hrun : (do
      let (ret, _) ← radixDeepCopy (← oneValue 0 1) newRadix true ⟨List.replicate 16 true, [7], id⟩
      some ret) = some 0 := by decide +kernel
  simp only [bind_eq_bind, bind_eq_some_iff, some.injEq, Prod.exists] at hrun
  obtain ⟨src, hsrc, ret, dst', m', hcopy, rfl⟩ := hrun
  obtain ⟨hvalid, hpages⟩ := oneValue_spec 0 1 hsrc
  refine ⟨src, dst', m', hsrc, hcopy, ?_⟩
  have hiff := radix_deep_copy_correct_iff src newRadix true _ m' 0 dst' hvalid valid_null
    (by simp) (fun k p hp => by simp [hpages k p hp]) hcopy
  exact (hiff.mpr ⟨by simp [newRadixNode, List.replicate], fun _ k _ => rfl⟩).1 rfl

end Starfish.RadixTree
