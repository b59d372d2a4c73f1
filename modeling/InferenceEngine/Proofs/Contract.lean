/-
What a forward leaves in the caches, for a model that keeps its contract.

The appends of the members interleave in any order, but each member's own come layer by
layer, so each cache is at every moment its first state and some of its appends.  Room for
every member's tokens, beside what the other sequences and the other users hold, is all that
is needed for every append to find its blocks.
-/
import InferenceEngine.Model.Contract
import InferenceEngine.Proofs.Forward
import Mathlib

namespace InferenceEngine

open Except BlockPool

variable {σ α : Type} [Zero α] {o : Multiset Int} {p₀ p p' : BlockPool α} {c₀ c : PagedKvCache}
  {tokens : Nat} {done : List (LayerAppend α)} {a : LayerAppend α} {g : KvLog α}

omit [Zero α] in
theorem Layered.left {geom : CacheGeometry} {more : List (LayerAppend α)}
    (h : Layered geom tokens (done ++ more)) : Layered geom tokens done := by
  refine ⟨fun i b hi => h.layer i b ?_, fun b hb => h.shape b (by simp [hb]),
    fun b hb => h.tokens b (by simp [hb])⟩
  rw [List.getElem?_append_left (List.getElem?_eq_some_iff.mp hi).1]
  exact hi

theorem KvLog.appendAll_concat (geom : CacheGeometry) (g : KvLog α)
    (done : List (LayerAppend α)) (a : LayerAppend α) :
    g.appendAll geom (done ++ [a])
      = (g.appendAll geom done).append a.layer (appendRows geom a.k a.v) := by
  simp [KvLog.appendAll]

/-! ### One cache

The appends to a cache come layer by layer, all of the same tokens.  Layer 0 takes the blocks,
and the others find them taken. -/

/-- What some appends have made of a cache that was between two forwards. -/
structure Grown (p₀ : BlockPool α) (c₀ : PagedKvCache) (tokens : Nat)
    (done : List (LayerAppend α)) (p : BlockPool α) (c : PagedKvCache) : Prop where
  log : c.log p = (c₀.log p₀).appendAll p₀.geom done
  numTokens : c.table.numTokens = c₀.table.numTokens + if done = [] then 0 else tokens
  nextLayer : c.nextLayer = (done.length : Int).tmod p₀.geom.numLayers
  pending : done ≠ [] → c.pendingSlots.length = tokens
  untouched : done = [] → c = c₀

theorem Grown.start (h : c₀.nextLayer = 0) : Grown p₀ c₀ tokens [] p₀ c₀ :=
  ⟨rfl, by simp, by simp [h], fun hc => absurd rfl hc, fun _ => rfl⟩

theorem Grown.of_kept (h : Grown p₀ c₀ tokens done p c) (hw : c.Wf p) (hk : LogsKept o p p')
    (hle : (↑c.table.blocks : Multiset Int) ≤ o) : Grown p₀ c₀ tokens done p' c :=
  ⟨(hk c hw hle).trans h.log, h.numTokens, h.nextLayer, h.pending, h.untouched⟩

/-- Whatever has been appended, what was committed before is still there. -/
theorem Grown.base_ge (h : Grown p₀ c₀ tokens done p c) (h₀ : c₀.nextLayer = 0) :
    c₀.table.numTokens ≤ c.base := by
  have htok := h.numTokens
  unfold PagedKvCache.base
  by_cases hd : done = []
  · rw [h.untouched hd, if_pos h₀]
  · rw [if_neg hd] at htok
    have := h.pending hd
    split <;> omega

theorem Grown.length_le (h : Grown p₀ c₀ tokens done p c) :
    c.length ≤ c₀.length + tokens := by
  have := h.numTokens
  show c.table.numTokens ≤ c₀.table.numTokens + tokens
  split at this <;> omega

/-- **The next append of a forward** finds the cache where the last one left it. -/
theorem Grown.append (h : Grown p₀ c₀ tokens done p c)
    (hs : SameShape p₀ p) (he : Exclusive p (↑c.table.blocks + o)) (hw : c.Wf p)
    (hl : Layered p₀.geom tokens (done ++ [a]))
    (hfit : done = [] → BlockTable.demand p.blockSize c.table.numTokens tokens
      ≤ p.freeList.length) :
    (c.append a.layer a.k a.v p).Returns fun r =>
      r.1 = .ok () ∧ Grown p₀ c₀ tokens (done ++ [a]) r.2.2 r.2.1 ∧
        Exclusive r.2.2 (↑r.2.1.table.blocks + o) ∧ r.2.1.Wf r.2.2 ∧ SameShape p r.2.2 ∧
        LogsKept o p r.2.2 ∧ r.2.2.exhaustions = p.exhaustions := by
  have hlayer : a.layer = done.length := hl.layer done.length a (by simp)
  have hshape := hl.shape a (by simp)
  have htok := hl.tokens a (by simp)
  have hrange := hshape.layer_range
  have hnext : c.nextLayer = done.length := by
    rw [h.nextLayer]
    exact Int.tmod_eq_of_lt (by omega) (by omega)
  have hbase : c.base = c₀.table.numTokens := by
    have hn := h.numTokens
    unfold PagedKvCache.base
    by_cases hd : done = []
    · rw [if_pos (by rw [hnext, hd]; rfl), hn, if_pos hd, Nat.add_zero]
    · have hpos := List.length_pos_iff.mpr hd
      have := h.pending hd
      rw [if_neg (by omega), hn, if_neg hd]
      omega
  have hzero : a.layer = 0 → done = [] := by
    intro hz
    exact List.length_eq_zero_iff.mp (by omega)
  refine (PagedKvCache.append_ok he hw (by rw [hs.geom]; exact hshape) (by omega) ?_ ?_).mono ?_
  · intro hne
    have hd : done ≠ [] := by
      rintro rfl
      exact hne (by simpa using hlayer)
    rw [htok, h.pending hd]
  · intro hz
    rw [htok]
    exact hfit (hzero hz)
  · rintro ⟨r, c', p'⟩ ⟨hr, happ⟩
    simp only at hr happ
    refine ⟨hr, ?_, happ.exclusive, happ.wf, happ.kept.shape, .of_rows happ.kept he happ.exclusive,
      happ.exhaustions⟩
    refine ⟨?_, ?_, ?_, ?_, fun hc => absurd hc (by simp)⟩
    · rw [happ.log, h.log, KvLog.appendAll_concat, hs.geom]
    · rw [happ.tokens, hbase, htok, if_neg (by simp)]
    · rw [happ.nextLayer, hlayer, hs.geom, List.length_append, List.length_singleton]
      rfl
    · intro _
      rw [happ.pending, PagedKvCache.lastSlots, List.length_map, List.length_range, htok]

/-- A log and some appends to its layers, cut back to the log. -/
theorem KvLog.truncate_appendAll {geom : CacheGeometry} {n : Nat}
    (hin : ∀ l, 0 ≤ l ∧ l < geom.numLayers → (g.rows l).length = n)
    (hout : ∀ l, ¬(0 ≤ l ∧ l < geom.numLayers) → g.rows l = [])
    (hshape : ∀ a ∈ done, AppendShape geom a.layer a.k a.v) :
    (g.appendAll geom done).truncate n = g := by
  have hrows : ∀ l, ∃ more, (g.appendAll geom done).rows l = g.rows l ++ more ∧
      (¬(0 ≤ l ∧ l < geom.numLayers) → more = []) := by
    intro l
    induction done using List.reverseRecOn with
    | nil => exact ⟨[], by simp [KvLog.appendAll], fun _ => rfl⟩
    | append_singleton done a ih =>
        obtain ⟨more, hmore, hnone⟩ := ih fun b hb => hshape b (by simp [hb])
        rw [KvLog.appendAll_concat, KvLog.append_rows]
        by_cases hl : l = a.layer
        · rw [if_pos hl, hmore, List.append_assoc]
          refine ⟨_, rfl, fun hc => absurd ?_ hc⟩
          rw [hl]
          exact (hshape a (by simp)).layer_range
        · rw [if_neg hl]
          exact ⟨more, hmore, hnone⟩
  refine KvLog.ext (funext fun l => ?_)
  rw [KvLog.truncate_rows]
  obtain ⟨more, hmore, hnone⟩ := hrows l
  by_cases hl : 0 ≤ l ∧ l < geom.numLayers
  · rw [hmore, List.take_append_of_le_length (hin l hl).ge, ← hin l hl, List.take_length]
  · rw [hmore, hnone hl, List.append_nil, hout l hl, List.take_nil]

/-- What a forward has appended, cut off again. -/
theorem Grown.truncate_log (h : Grown p₀ c₀ tokens done p c) (h₀ : c₀.nextLayer = 0)
    (hl : Layered p₀.geom tokens done) : (c.log p).truncate c₀.length = c₀.log p₀ := by
  rw [h.log]
  refine KvLog.truncate_appendAll (fun l hl => ?_) (fun l hl => ?_) hl.shape
  · rw [PagedKvCache.log_rows hl, List.length_map, List.length_range, PagedKvCache.visible,
      if_pos (Or.inl h₀)]
    exact Int.toNat_natCast _
  · exact PagedKvCache.log_rows_outside hl

/-! ### The caches of a forward

The members' caches are told apart by their blocks.  Each of them has room, and what one takes
is what was counted for it. -/

/-- Room for the tokens of every member, beside `o` and what the other users hold. -/
def Room (s : SharedPool α) (seqs : List ForwardSeq) (o : Multiset Int) : Prop :=
  (seqs.map fun fs => (fs.cache.length + fs.tokenIds.length) ⌈/⌉ s.pool.blockSize).sum
    + Multiset.card o + s.others.length ≤ s.pool.numBlocks

/-- The caches of a forward some of whose appends are done. -/
structure Growing (s₀ : SharedPool α) (seqs : List ForwardSeq) (done : Nat → List (LayerAppend α))
    (caches : List PagedKvCache) (s : SharedPool α) (o : Multiset Int) : Prop where
  books : PoolBooks s caches o
  length : caches.length = seqs.length
  shape : SameShape s₀.pool s.pool
  others : s.others = s₀.others
  exhaustions : s.pool.exhaustions = s₀.pool.exhaustions
  member : ∀ b fs, seqs[b]? = some fs → ∃ c, caches[b]? = some c ∧
    Grown s₀.pool fs.cache fs.tokenIds.length (done b) s.pool c

private theorem sum_add_sub_le {l l' : List Nat} (h : List.Forall₂ (· ≤ ·) l l') :
    ∀ {i x y : Nat}, l[i]? = some x → l'[i]? = some y → l.sum + (y - x) ≤ l'.sum := by
  induction h with
  | nil => intro i x y hx; simp at hx
  | cons hab hrest ih =>
      intro i x y hx hy
      rw [List.sum_cons, List.sum_cons]
      cases i with
      | zero =>
          simp only [List.getElem?_cons_zero, Option.some.injEq] at hx hy
          subst hx hy
          have := hrest.sum_le_sum
          omega
      | succ i =>
          have := ih hx hy
          omega

omit [Zero α] in
private theorem card_cacheBlocks (caches : List PagedKvCache) :
    Multiset.card (cacheBlocks caches) = (caches.map fun c => c.table.blocks.length).sum := by
  induction caches with
  | nil => rfl
  | cons c rest ih => rw [cacheBlocks_cons, Multiset.card_add, ih]; simp

variable {s₀ s : SharedPool α} {seqs : List ForwardSeq} {done : Nat → List (LayerAppend α)}
  {caches : List PagedKvCache}

/-- A member that has appended nothing yet finds the blocks its tokens need. -/
theorem Growing.fits (h : Growing s₀ seqs done caches s o) (hroom : Room s₀ seqs o) {b : Nat}
    {fs : ForwardSeq} (hfs : seqs[b]? = some fs) (hd : done b = []) :
    BlockTable.demand s.pool.blockSize fs.cache.table.numTokens fs.tokenIds.length
      ≤ s.pool.freeList.length := by
  have hbs := h.books.exclusive.blockSize_pos
  have hused : s.pool.used
      = Multiset.card (cacheBlocks caches) + (s.others.length + Multiset.card o) := by
    rw [h.books.exclusive.owned.used_eq_card,
      Multiset.toFinset_card_of_nodup h.books.exclusive.nodup,
      Multiset.card_add, Multiset.card_add, Multiset.coe_card]
  have hle : List.Forall₂ (· ≤ ·) (caches.map fun c => c.table.blocks.length)
      (seqs.map fun fs => (fs.cache.length + fs.tokenIds.length) ⌈/⌉ s.pool.blockSize) := by
    refine List.forall₂_of_length_eq_of_get (by simp [h.length]) ?_
    intro i h₁ h₂
    simp only [List.length_map] at h₁ h₂
    obtain ⟨c, hc, hg⟩ := h.member i _ (List.getElem?_eq_getElem h₂)
    obtain ⟨_, hcget⟩ := List.getElem?_eq_some_iff.mp hc
    have hsized := (h.books.wf c (List.mem_of_getElem? hc)).sized
    unfold BlockTable.Sized at hsized
    simp only [List.get_eq_getElem, List.getElem_map, hcget, hsized]
    refine BlockTable.ceilDiv_mono ?_ hbs
    rw [hg.numTokens]
    show _ ≤ seqs[i].cache.table.numTokens + _
    split <;> omega
  obtain ⟨c, hc, hg⟩ := h.member b fs hfs
  have hsized := (h.books.wf c (List.mem_of_getElem? hc)).sized
  have hsum := sum_add_sub_le hle (i := b) (x := c.table.blocks.length)
    (y := (fs.cache.length + fs.tokenIds.length) ⌈/⌉ s.pool.blockSize)
    (by simp [hc]) (by simp [hfs])
  have hfree := h.books.exclusive.owned.used_add_free
  unfold Room at hroom
  rw [← h.shape.blockSize, ← h.shape.numBlocks, ← h.others] at hroom
  rw [hg.untouched hd] at hsum hsized
  unfold BlockTable.Sized at hsized
  rw [card_cacheBlocks] at hused
  unfold BlockTable.demand
  show (fs.cache.length + fs.tokenIds.length) ⌈/⌉ s.pool.blockSize
    - fs.cache.table.numTokens ⌈/⌉ s.pool.blockSize ≤ _
  omega

/-- In front of a forward there is room for each of its sequences. -/
theorem PoolBooks.hasRoom (h : PoolBooks s (seqs.map (·.cache)) o)
    (hg : Growing s seqs (fun _ => []) (seqs.map (·.cache)) s o) (hroom : Room s seqs o) {b : Nat}
    {fs : ForwardSeq} (hfs : seqs[b]? = some fs) : fs.HasRoom s.pool := by
  have hfits := hg.fits hroom hfs rfl
  have hsized := (h.wf fs.cache (List.mem_map_of_mem (List.mem_of_getElem? hfs))).sized
  unfold BlockTable.Sized at hsized
  unfold BlockTable.demand at hfits
  unfold ForwardSeq.HasRoom
  show (fs.cache.table.numTokens + fs.tokenIds.length) ⌈/⌉ s.pool.blockSize ≤ _
  omega

/-- An append to a member that there is not concerns nobody. -/
theorem Growing.appendsTo_none (h : Growing s₀ seqs done caches s o) {member : Nat} {layer : Int}
    {k v : Tensor α} {rest : List (ForwardEffect α)} (hc : caches[member]? = none) {b : Nat}
    {fs : ForwardSeq} (hfs : seqs[b]? = some fs) :
    appendsTo b (.append member layer k v :: rest) = appendsTo b rest := by
  have hnone : seqs.length ≤ member := by
    rw [← h.length]
    exact List.getElem?_eq_none_iff.mp hc
  have hlt := (List.getElem?_eq_some_iff.mp hfs).1
  rw [appendsTo, if_neg (by omega)]

omit [Zero α] in
/-- What the appends to one member add to what has been done. -/
theorem done_append (member : Nat) (layer : Int) (k v : Tensor α) (rest : List (ForwardEffect α))
    (done : Nat → List (LayerAppend α)) :
    (fun b => done b ++ appendsTo b (.append member layer k v :: rest))
      = fun b => Function.update done member (done member ++ [⟨layer, k, v⟩]) b
          ++ appendsTo b rest := by
  funext b
  by_cases hb : b = member
  · rw [hb, Function.update_self, appendsTo, if_pos rfl, List.append_cons]
  · rw [Function.update_of_ne hb, appendsTo, if_neg (fun hc => hb hc.symm)]

/-- **One append of a lawful forward** is made, and the other members are left alone. -/
theorem Growing.append (h : Growing s₀ seqs done caches s o) (hroom : Room s₀ seqs o)
    {member : Nat} {layer : Int} {k v : Tensor α} {c : PagedKvCache} {fs : ForwardSeq}
    (hc : caches[member]? = some c) (hfs : seqs[member]? = some fs)
    (hlay : Layered s₀.pool.geom fs.tokenIds.length (done member ++ [⟨layer, k, v⟩])) :
    (c.append layer k v s.pool).Returns fun r => r.1 = .ok () ∧
      Growing s₀ seqs (Function.update done member (done member ++ [⟨layer, k, v⟩]))
        (caches.set member r.2.1) { s with pool := r.2.2 } o := by
  obtain ⟨r, hr, hset, hrest⟩ := cacheBlocks_split hc
  have hlt : member < caches.length := (List.getElem?_eq_some_iff.mp hc).1
  obtain ⟨c', hc', hgrown⟩ := h.member member _ hfs
  rw [hc] at hc'
  cases hc'
  have he := h.books.exclusive
  rw [hr, add_assoc] at he
  refine (hgrown.append h.shape he (h.books.wf c (List.mem_of_getElem? hc)) hlay ?_).mono ?_
  · intro hd
    rw [hgrown.untouched hd]
    exact h.fits hroom hfs hd
  · rintro ⟨appended, c', p'⟩ ⟨hok, hgrown', he', hw', hs, hk, hexh⟩
    refine ⟨hok, ⟨⟨?_, ?_⟩, List.length_set.trans h.length, h.shape.trans hs, h.others,
      hexh.trans h.exhaustions, ?_⟩⟩
    · rw [hset, add_assoc]
      exact he'
    · intro d hd
      rcases List.mem_or_eq_of_mem_set hd with hd | rfl
      · exact (h.books.wf d hd).of_shape hs
      · exact hw'
    · intro b fs' hb
      by_cases hbm : b = member
      · subst hbm
        rw [hfs] at hb
        cases hb
        refine ⟨c', List.getElem?_set_self hlt, ?_⟩
        rw [Function.update_self]
        exact hgrown'
      · obtain ⟨d, hd, hgd⟩ := h.member b fs' hb
        refine ⟨d, (List.getElem?_set_ne (fun hc => hbm hc.symm)).trans hd, ?_⟩
        rw [Function.update_of_ne hbm]
        exact hgd.of_kept (h.books.wf d (List.mem_of_getElem? hd)) hk
          ((hrest b d hbm hd).trans (Multiset.le_add_right _ _))

/-- **A forward of a model that keeps its contract** makes every append it attempts. -/
theorem runEffects_grown (hroom : Room s₀ seqs o)
    (effects : List (ForwardEffect α)) :
    ∀ {done : Nat → List (LayerAppend α)} {caches : List PagedKvCache} {s : SharedPool α},
      Growing s₀ seqs done caches s o → (∀ use, .other use ∉ effects) →
      (∀ (b : Nat) fs, seqs[b]? = some fs →
        Layered s₀.pool.geom fs.tokenIds.length (done b ++ appendsTo b effects)) →
      (runEffects effects caches s).Returns fun r =>
        r.1 = .ok () ∧ Growing s₀ seqs (fun b => done b ++ appendsTo b effects) r.2.1 r.2.2 o := by
  induction effects with
  | nil =>
      intro done caches s hg _ _
      refine returns_pure ⟨rfl, ?_⟩
      simpa [appendsTo] using hg
  | cons effect rest ih =>
      intro done caches s hg hquiet hlay
      cases effect with
      | other use => exact absurd (by simp) (hquiet use)
      | append member layer k v =>
          have hquiet' : ∀ use, .other use ∉ rest := fun use hu =>
            hquiet use (List.mem_cons_of_mem _ hu)
          unfold runEffects
          cases hc : caches[member]? with
          | none =>
              refine (ih hg hquiet' fun b fs hfs => ?_).mono ?_
              · rw [← hg.appendsTo_none hc hfs]
                exact hlay b fs hfs
              · rintro r ⟨hr, hg'⟩
                refine ⟨hr, { hg' with member := fun b fs hfs => ?_ }⟩
                rw [hg.appendsTo_none hc hfs]
                exact hg'.member b fs hfs
          | some c =>
              have hlt : member < seqs.length := by
                rw [← hg.length]
                exact (List.getElem?_eq_some_iff.mp hc).1
              have hfs : seqs[member]? = some seqs[member] := List.getElem?_eq_getElem hlt
              have hmine := hlay member _ hfs
              rw [appendsTo, if_pos rfl, List.append_cons] at hmine
              refine Returns.bind (hg.append hroom hc hfs hmine.left) ?_
              rintro ⟨appended, c', p'⟩ ⟨hok, hg'⟩
              simp only at hok hg'
              subst hok
              rw [done_append]
              refine ih hg' hquiet' fun b fs hb => ?_
              have hnext := hlay b fs hb
              rw [congrFun (done_append member layer k v rest done) b] at hnext
              exact hnext

/-! ### A call of the model

What the caller is told: the rows and full caches of a success, or a failure and caches that may
have grown. -/

/-- What a call leaves behind. -/
structure Lawful (m : Model σ α) (state : σ) (request : ForwardRequest) (s : SharedPool α)
    (r : Model.Called σ α) : Prop where
  logits : r.logits = (m.forward state request s.pool).1.logits
  others : r.shared.others = s.others
  exhaustions : r.shared.pool.exhaustions = s.pool.exhaustions
  room : ∀ (b : Nat) fs, request.seqs[b]? = some fs → fs.HasRoom s.pool
  member : ∀ (b : Nat) fs, request.seqs[b]? = some fs → ∃ c, r.caches[b]? = some c ∧
    Grown s.pool fs.cache fs.tokenIds.length
      (appendsTo b (m.forward state request s.pool).1.effects) r.shared.pool c

theorem Model.call_lawful {may : Answers α} {m : Model σ α} (hm : m.Contract may) (state : σ)
    (request : ForwardRequest) {s : SharedPool α} (hformed : ∀ fs ∈ request.seqs, fs.Formed)
    (hgeom : s.pool.geom = m.geometry) (hb : PoolBooks s (request.seqs.map (·.cache)) o)
    (hroom : Room s request.seqs o) :
    (m.call state request s).Returns (Lawful m state request s) := by
  unfold Model.call
  have hg : Growing s request.seqs (fun _ => []) (request.seqs.map (·.cache)) s o := by
    refine ⟨hb, List.length_map _, SameShape.refl _, rfl, rfl, fun b fs hfs => ?_⟩
    exact ⟨fs.cache, by simp [hfs], .start (hformed fs (List.mem_of_getElem? hfs)).committed⟩
  refine Returns.bind (runEffects_grown hroom _ hg
    (hm.undisturbed state request s.pool) fun b fs hfs => ?_) ?_
  · rw [hgeom, List.nil_append]
    exact hm.layered state request s.pool hformed b fs hfs
  · rintro ⟨ran, caches, shared⟩ ⟨hok, hg'⟩
    simp only at hok
    subst hok
    refine returns_pure ⟨rfl, hg'.others, hg'.exhaustions,
      fun b fs hfs => hb.hasRoom hg hroom hfs, fun b fs hfs => ?_⟩
    simpa using hg'.member b fs hfs

section

variable {may : Answers α} {m : Model σ α} {state : σ} {request : ForwardRequest}
  {s : SharedPool α} {r : Model.Called σ α} {b : Nat} {fs : ForwardSeq}

/-- **An answer covers every member**: its row, and its cache with its tokens appended. -/
theorem Lawful.answered (h : Lawful m state request s r) (hm : m.Contract may)
    (hformed : ∀ fs ∈ request.seqs, fs.Formed) (hgeom : s.pool.geom = m.geometry)
    (hlayers : 0 < s.pool.geom.numLayers) {logits : Tensor F32} (hlogits : r.logits = .ok logits)
    (hfs : request.seqs[b]? = some fs) :
    ∃ c, r.caches[b]? = some c ∧
      may (fs.cache.log s.pool) fs.tokenIds
        (.ok (BatchedSampler.row logits.values m.vocabSize.toNat b, c.log r.shared.pool)) ∧
      c.nextLayer = 0 ∧ c.length = fs.cache.length + fs.tokenIds.length := by
  obtain ⟨c, hc, hg⟩ := h.member b fs hfs
  obtain ⟨hlen, hmay⟩ := hm.answers state request s.pool logits hformed
    (h.logits.symm.trans hlogits) b fs hfs
  have hne : appendsTo b (m.forward state request s.pool).1.effects ≠ [] := by
    intro hnil
    rw [hnil, List.length_nil] at hlen
    rw [hgeom] at hlayers
    omega
  refine ⟨c, hc, ?_, ?_, ?_⟩
  · rw [hg.log, hgeom]
    exact hmay
  · rw [hg.nextLayer, hlen, hgeom]
    exact Int.tmod_self
  · have := hg.numTokens
    rwa [if_neg hne] at this

/-- A standalone forward that is refused for want of room has touched nothing. -/
theorem Lawful.refused (h : Lawful m state ⟨false, [fs]⟩ s r) (hm : m.Contract may)
    (hformed : fs.Formed) {status : Status} (hlogits : r.logits = .error status) :
    may (fs.cache.log s.pool) fs.tokenIds (.error status) ∧
      ∃ c, r.caches[0]? = some c ∧ c.length ≤ fs.cache.length + fs.tokenIds.length ∧
        (status.code = .resourceExhausted →
          c = fs.cache ∧ c.log r.shared.pool = c.log s.pool) := by
  obtain ⟨c, hc, hg⟩ := h.member 0 fs rfl
  obtain ⟨hmay, hnone⟩ := hm.refuses state fs s.pool status hformed (h.logits.symm.trans hlogits)
  refine ⟨hmay.resolve_right fun hno => hno.2 (h.room 0 fs rfl), c, hc, hg.length_le,
    fun hcode => ?_⟩
  have hlog := hg.log
  rw [hnone hcode] at hg hlog
  obtain rfl := hg.untouched rfl
  exact ⟨rfl, hlog⟩

end

end InferenceEngine
