import Dlmalloc.Abstract.Growth
import Dlmalloc.Machine.Driver
import Dlmalloc.Properties.Blocks
import Dlmalloc.Properties.Validator

/-!
# The allocator under the driver

The loops of the driver run a trace against an allocator. `Backed` ties the account of a trace
(`Ledger`) to the state of this allocator, and `Backed.request` and `Backed.free` say what one
request does to both.

The driver may write up to the end of the last word of a block. The blocks of the allocator have
room for that: a request for `size` bytes is one for `ALIGN size` bytes, so that the blocks are
taken to be of whole words (`Payload.block`).
-/

namespace Dlmalloc

open Heap

/-! ### Blocks of whole words -/

/-- The block of the allocator that a payload is in: all its words. -/
def Payload.block (b : Payload) : Block := ⟨b.ptr, (b.size + 7) / 8 * 8⟩

section Align

variable {size : ℕ}

theorem ALIGN_of_le (h : size ≤ LARGEST_SIZE) : ALIGN size = (size + 7) / 8 * 8 := by
  have hlargest : LARGEST_SIZE = 2 ^ 31 - 1024 := rfl
  rw [ALIGN_eq, add64_of_lt (by omega)]

/-- A request is one for whole words. -/
theorem requestSize_words (h : size ≤ LARGEST_SIZE) :
    requestSize ((size + 7) / 8 * 8) = requestSize size := by
  have hlargest : LARGEST_SIZE = 2 ^ 31 - 1024 := rfl
  rw [requestSize, requestSize, ALIGN_of_le h, ALIGN_of_le (by omega)]
  congr 1
  omega

theorem myMalloc_words (h0 : 0 < size) (h : size ≤ LARGEST_SIZE) :
    myMalloc EXTENSION_SIZE ((size + 7) / 8 * 8) = myMalloc EXTENSION_SIZE size := by
  have hwords : (size + 7) / 8 * 8 ≠ 0 := by omega
  unfold myMalloc
  rw [requestSize_words h, if_neg h0.ne', if_neg hwords]

theorem myRealloc_words {p : Addr} (h : size ≤ LARGEST_SIZE) :
    myRealloc EXTENSION_SIZE p ((size + 7) / 8 * 8) = myRealloc EXTENSION_SIZE p size := by
  unfold myRealloc
  rw [requestSize_words h]

theorem words_le_largest (h : size ≤ LARGEST_SIZE) : (size + 7) / 8 * 8 ≤ LARGEST_SIZE := by
  have hlargest : LARGEST_SIZE = 2 ^ 31 - 1024 := rfl
  omega

end Align

/-! ### The allocator as the driver sees it -/

/-- The indices that hold a block after a request, if they were `held` before. -/
def TraceOp.holds (op : TraceOp) (held : Finset ℕ) : Finset ℕ :=
  match op.type with
  | .alloc | .realloc => insert op.index held
  | .free => held.erase op.index
  | .write => held

instance (op : TraceOp) : Decidable op.Asks := inferInstanceAs (Decidable (_ ∨ _))

/-- What a request may add to the heap. -/
def TraceOp.charge (op : TraceOp) : ℕ :=
  if op.Asks then requestSize op.size + EXTENSION_SIZE else 0

/-- The calls that the loops of the driver make for a request. -/
def TraceOp.request {σ : Type} (impl : MallocImpl σ) (op : TraceOp) (blocks : ℕ → Addr)
    (w : World σ) : Addr × World σ :=
  match op.type with
  | .alloc => impl.malloc op.size w
  | .realloc => impl.realloc (blocks op.index) op.size w
  | .free => (NULL, impl.free (blocks op.index) w)
  | .write => (NULL, w)

/-- The account of a trace and the allocator's: the live blocks are the same, and `blocks` has the
pointers of those that have an index. -/
structure Backed (blocks : ℕ → Addr) (w : World Statics) (l : Ledger) (y : System) (σ : Session) :
    Prop where
  tracks : Tracks False EXTENSION_SIZE y σ
  state : w.state = y.state
  live : (y.live : Multiset Block) = l.live.map Payload.block
  sizes : ∀ b ∈ l.live, 0 < b.size ∧ b.size ≤ LARGEST_SIZE
  handles : ∀ i b, l.handle i = some b → b ∈ l.live ∧ blocks i = b.ptr
  distinct : ∀ i j b, l.handle i = some b → l.handle j = some b → i = j

/-- A request was granted with a block at `p`; the contents of the others are kept, and those of
the block that is reallocated are brought along. -/
structure Granted (op : TraceOp) (l : Ledger) (y y' : System) (σ' : Session) (p : Addr) : Prop where
  tracks : Tracks False EXTENSION_SIZE y' σ'
  live : (y'.live : Multiset Block) =
    ⟨p, (op.size + 7) / 8 * 8⟩ ::ₘ (l.others op).map Payload.block
  keeps : ∀ b ∈ l.others op, ∀ k < b.block.size,
    y'.state.mem (b.ptr + k) = y.state.mem (b.ptr + k)
  moved : op.type = .realloc → ∀ b, l.handle op.index = some b →
    ∀ k < b.block.size, k < (op.size + 7) / 8 * 8 →
      y'.state.mem (p + k) = y.state.mem (b.ptr + k)

section Backed

variable {blocks : ℕ → Addr} {w w' : World Statics} {l : Ledger} {y y' y'' : System}
  {σ σ' : Session} {op : TraceOp} {s : State} {b : Payload} {i j p : ℕ} {held : Finset ℕ}

theorem World.call_of_run {x : M Addr} (h : x w.state = some (p, s)) (hp : p < 2 ^ 64) :
    w.call x = (p, s.world) := by
  have hmod : p % 2 ^ 64 = p := Nat.mod_eq_of_lt hp
  rw [World.call, h]
  simp only [hmod]

theorem World.perform_of_run {x : M Unit} (h : x w.state = some ((), s)) :
    w.perform x = s.world := by
  rw [World.perform, h]

/-- Both kinds of requests for a block go the same way when a trace is run again. -/
theorem replayOp_of_asks {α : Type} {impl : MallocImpl α} {write : TraceOp → Replay α → Replay α}
    {r : Replay α} (h : op.Asks) :
    replayOp impl write op r = if (op.request impl r.blocks r.world).1 = NULL then none
      else some ⟨Function.update r.blocks op.index (op.request impl r.blocks r.world).1,
        (op.request impl r.blocks r.world).2⟩ := by
  unfold replayOp TraceOp.request
  rcases h with ht | ht <;> simp only [ht]

/-- A live block ends before the end of the address space. -/
theorem Tracks.live_lt {n : ℕ} (ht : Tracks False EXTENSION_SIZE y σ)
    (hb : y.live[i]? = some ⟨p, n⟩) : p + n < 2 ^ 64 := by
  have hs := ht.good.inv.shape
  obtain ⟨d, hd, -, hptr, hsize, -⟩ := ht.good.chunk (ht.follows.live ▸ hb)
  have h1 : p = d.addr + 16 := hptr
  have h2 : n ≤ d.size := hsize
  have h3 := (hs.bounds hd).2
  have h4 := hs.arena.brk_le
  have h5 := hs.arena.span
  simp only [Chunk.next] at h3
  omega

theorem Tracks.overwrite {n : ℕ} {mem : ByteMem} (ht : Tracks False EXTENSION_SIZE y σ)
    (hb : y.live[i]? = some ⟨p, n⟩) (hout : ∀ x, x < p ∨ p + n ≤ x → mem x = y.state.mem x) :
    Tracks False EXTENSION_SIZE { y with state := { y.state with mem := mem } } σ :=
  ⟨ht.follows.overwrite ht.good hb hout, ht.good⟩

/-- A live block other than a new one at place `j` is at another place. -/
theorem exists_place {others : Multiset Payload} {live : List Block} {a : Block}
    (hj : live[j]? = some a) (hlive : (live : Multiset Block) = a ::ₘ others.map Payload.block)
    (hb : b ∈ others) : ∃ k, k ≠ j ∧ live[k]? = some b.block := by
  have herase : (live.eraseIdx j : Multiset Block) = others.map Payload.block := by
    rw [coe_eraseIdx hj] at hlive
    exact (Multiset.cons_inj_right a).mp hlive
  have hmem : b.block ∈ live.eraseIdx j := by
    rw [← Multiset.mem_coe, herase]
    exact Multiset.mem_map_of_mem _ hb
  exact List.mem_eraseIdx_iff_getElem?.mp hmem

/-- A live block has a place. -/
theorem Backed.exists_block (h : Backed blocks w l y σ) (hb : b ∈ l.live) :
    ∃ i : ℕ, y.live[i]? = some b.block := by
  refine List.getElem?_of_mem ?_
  rw [← Multiset.mem_coe, h.live]
  exact Multiset.mem_map_of_mem _ hb

/-- The place of the new block. -/
theorem Granted.exists_block (hg : Granted op l y y' σ' p) :
    ∃ j : ℕ, y'.live[j]? = some ⟨p, (op.size + 7) / 8 * 8⟩ := by
  refine List.getElem?_of_mem ?_
  rw [← Multiset.mem_coe, hg.live]
  exact Multiset.mem_cons_self _ _

/-- The new block is apart from the others, to its last word. -/
theorem Granted.apart (hg : Granted op l y y' σ' p) (hb : b ∈ l.others op) :
    p + (op.size + 7) / 8 * 8 ≤ b.ptr ∨ b.ptr + (b.size + 7) / 8 * 8 ≤ p := by
  obtain ⟨j, hj⟩ := hg.exists_block
  obtain ⟨k, hk, hbk⟩ := exists_place hj hg.live hb
  exact hg.tracks.live_apart hj hbk hk.symm

theorem others_le : l.others op ≤ l.live := by
  unfold Ledger.others
  split_ifs
  · split
    · exact le_rfl
    · exact Multiset.erase_le _ _
  · exact le_rfl

/-- The block of another index is not given up. -/
theorem Backed.mem_others (h : Backed blocks w l y σ) (hb : l.handle i = some b)
    (hi : i ≠ op.index) : b ∈ l.others op := by
  have hlive := (h.handles i b hb).1
  unfold Ledger.others
  split_ifs
  · cases hown : l.handle op.index with
    | none => exact hlive
    | some b' =>
      refine (Multiset.mem_erase_of_ne fun heq => ?_).mpr hlive
      exact hi (h.distinct i op.index b hb (heq ▸ hown))
  · exact hlive

/-- After a granted request the accounts agree again, whatever the driver wrote into the block. -/
theorem Backed.after (h : Backed blocks w l y σ) (hg : Granted op l y y' σ' p) (hasks : op.Asks)
    (hpos : 0 < op.size) (hle : op.size ≤ LARGEST_SIZE) (hstate : w'.state = y''.state)
    (ht : Tracks False EXTENSION_SIZE y'' σ') (hlive : y''.live = y'.live) :
    Backed (Function.update blocks op.index p) w' (l.after op p) y'' σ' := by
  have hnew : (⟨p, op.size⟩ : Payload) ∉ l.others op := fun hmem => by
    have happ := hg.apart hmem
    dsimp only at happ
    omega
  rw [Ledger.after_of_asks hasks]
  refine ⟨ht, hstate, ?_, fun b hb => ?_, fun i b hb => ?_, fun i j b hi hj => ?_⟩
  · rw [hlive, hg.live, Multiset.map_cons]
    rfl
  · rcases Multiset.mem_cons.mp hb with rfl | hb
    · exact ⟨hpos, hle⟩
    · exact h.sizes b (Multiset.mem_of_le others_le hb)
  · dsimp only at hb ⊢
    by_cases hi : i = op.index
    · subst hi
      rw [Function.update_self] at hb ⊢
      rw [← Option.some.inj hb]
      exact ⟨Multiset.mem_cons_self _ _, rfl⟩
    · rw [Function.update_of_ne hi] at hb ⊢
      exact ⟨Multiset.mem_cons_of_mem (h.mem_others hb hi), (h.handles i b hb).2⟩
  · dsimp only at hi hj
    by_cases hi' : i = op.index <;> by_cases hj' : j = op.index
    · rw [hi', hj']
    · -- the new block is not the block of another index
      subst hi'
      rw [Function.update_self] at hi
      rw [Function.update_of_ne hj', ← Option.some.inj hi] at hj
      exact absurd (h.mem_others hj hj') hnew
    · subst hj'
      rw [Function.update_self] at hj
      rw [Function.update_of_ne hi', ← Option.some.inj hj] at hi
      exact absurd (h.mem_others hi hi') hnew
    · rw [Function.update_of_ne hi'] at hi
      rw [Function.update_of_ne hj'] at hj
      exact h.distinct i j b hi hj

/-- A request for a new block is a call of the session. -/
theorem Backed.alloc (h : Backed blocks w l y σ) (ht : op.type = .alloc) (hpos : 0 < op.size)
    (hle : op.size ≤ LARGEST_SIZE) :
    ∃ y', op.request myImpl blocks w =
        ((σ.call EXTENSION_SIZE (.malloc ((op.size + 7) / 8 * 8))).1, y'.state.world) ∧
      ((σ.call EXTENSION_SIZE (.malloc ((op.size + 7) / 8 * 8))).1 ≠ NULL →
        Granted op l y y' (σ.call EXTENSION_SIZE (.malloc ((op.size + 7) / 8 * 8))).2
          (σ.call EXTENSION_SIZE (.malloc ((op.size + 7) / 8 * 8))).1) := by
  obtain ⟨y', hrun, ht', heff⟩ := h.tracks.call extension_default (N := LARGEST_SIZE)
    (c := .malloc ((op.size + 7) / 8 * 8)) (by decide) (words_le_largest hle)
  obtain ⟨⟨p, s'⟩, hmalloc, he⟩ := Option.map_eq_some_iff.mp hrun
  obtain ⟨hp, rfl⟩ := Prod.mk.inj he
  rw [← hp] at heff ⊢
  rw [myMalloc_words hpos hle, ← h.state] at hmalloc
  -- every other payload stays where it is
  have hothers : l.others op = l.live := if_neg (by simp [ht])
  have hrequest : op.request myImpl blocks w = w.call (myMalloc EXTENSION_SIZE op.size) := by
    rw [TraceOp.request, ht]
    rfl
  by_cases hp0 : p = NULL
  · refine ⟨⟨s', y.live⟩, ?_, fun hne => absurd hp0 hne⟩
    rw [hrequest]
    exact World.call_of_run hmalloc (by rw [hp0]; decide)
  rw [if_neg hp0] at ht' heff
  -- the new block goes to the end of the live ones
  have hlive : ((y.live ++ [⟨p, (op.size + 7) / 8 * 8⟩] : List Block) : Multiset Block) =
      ⟨p, (op.size + 7) / 8 * 8⟩ ::ₘ (l.others op).map Payload.block := by
    rw [hothers, ← h.live, Multiset.cons_coe]
    exact Multiset.coe_eq_coe.mpr (List.perm_append_singleton _ _)
  have hg : Granted op l y ⟨s', y.live ++ [⟨p, (op.size + 7) / 8 * 8⟩]⟩
      (σ.call EXTENSION_SIZE (.malloc ((op.size + 7) / 8 * 8))).2 p := by
    refine ⟨⟨ht'.follows, ht'.good.weaken False.elim⟩, hlive, fun b hb k hk => ?_,
      fun h0 => absurd (ht.symm.trans h0) (by decide)⟩
    rw [hothers] at hb
    obtain ⟨i, hi⟩ := h.exists_block hb
    exact heff.others i b.block hi id k hk
  -- a pointer returned is below `2 ^ 64`, so the driver sees it as it is
  obtain ⟨j, hj⟩ := hg.exists_block
  refine ⟨_, ?_, fun _ => hg⟩
  rw [hrequest]
  have := hg.tracks.live_lt hj
  exact World.call_of_run hmalloc (by omega)

/-- So is a request to change the size of a block. -/
theorem Backed.realloc (h : Backed blocks w l y σ) (ht : op.type = .realloc)
    (hb : l.handle op.index = some b) (hi : σ.live[i]? = some b.block)
    (hle : op.size ≤ LARGEST_SIZE) :
    ∃ y', op.request myImpl blocks w =
        ((σ.call EXTENSION_SIZE (.realloc i ((op.size + 7) / 8 * 8))).1, y'.state.world) ∧
      ((σ.call EXTENSION_SIZE (.realloc i ((op.size + 7) / 8 * 8))).1 ≠ NULL →
        Granted op l y y' (σ.call EXTENSION_SIZE (.realloc i ((op.size + 7) / 8 * 8))).2
          (σ.call EXTENSION_SIZE (.realloc i ((op.size + 7) / 8 * 8))).1) := by
  obtain ⟨hblive, hbptr⟩ := h.handles _ b hb
  rw [← h.tracks.follows.live] at hi
  have hlen : i < y.live.length := (List.getElem?_eq_some_iff.mp hi).1
  obtain ⟨y', hrun, ht', heff⟩ := h.tracks.call extension_default (N := LARGEST_SIZE)
    (c := .realloc i ((op.size + 7) / 8 * 8)) (by decide) ⟨hlen, words_le_largest hle⟩
  have hrun' := hrun
  rw [Call.run, hi, Option.bind_some] at hrun'
  obtain ⟨⟨p, s'⟩, hrealloc, he⟩ := Option.map_eq_some_iff.mp hrun'
  obtain ⟨hp, rfl⟩ := Prod.mk.inj he
  rw [← hp] at heff
  rw [myRealloc_words hle, ← h.state] at hrealloc
  have hothers : l.others op = l.live.erase b := by
    unfold Ledger.others
    rw [if_pos (.inl ht), hb]
  -- the driver passes the pointer it has stored for the index
  have hrequest : op.request myImpl blocks w =
      w.call (myRealloc EXTENSION_SIZE b.ptr op.size) := by
    rw [TraceOp.request, ht, ← hbptr]
    rfl
  by_cases hp0 : p = NULL
  · refine ⟨⟨s', y.live⟩, ?_, fun hne => absurd (hp.symm.trans hp0) hne⟩
    rw [hrequest, ← hp]
    exact World.call_of_run hrealloc (by rw [hp0]; decide)
  rw [if_neg hp0] at ht' heff
  -- the payloads the request leaves alone
  have herase : (y.live.eraseIdx i : Multiset Block) = (l.others op).map Payload.block := by
    have h1 := h.live
    rw [coe_eraseIdx hi, ← Multiset.cons_erase hblive, Multiset.map_cons] at h1
    rw [hothers]
    exact (Multiset.cons_inj_right _).mp h1
  have hlive : ((y.live.set i ⟨p, (op.size + 7) / 8 * 8⟩ : List Block) : Multiset Block) =
      ⟨p, (op.size + 7) / 8 * 8⟩ ::ₘ (l.others op).map Payload.block := by
    rw [coe_set hi, herase]
  have hg : Granted op l y ⟨s', y.live.set i ⟨p, (op.size + 7) / 8 * 8⟩⟩
      (σ.call EXTENSION_SIZE (.realloc i ((op.size + 7) / 8 * 8))).2 p := by
    refine ⟨⟨ht'.follows, ht'.good.weaken False.elim⟩, hlive, fun b' hb' k hk => ?_,
      fun _ b' hb' k hk hk' => ?_⟩
    · -- the bytes of the others, and those carried along
      have hmem : b'.block ∈ y.live.eraseIdx i := by
        rw [← Multiset.mem_coe, herase]
        exact Multiset.mem_map_of_mem _ hb'
      obtain ⟨j, hji, hj⟩ := List.mem_eraseIdx_iff_getElem?.mp hmem
      exact heff.others j b'.block hj hji k hk
    · obtain rfl : b = b' := Option.some.inj (hb.symm.trans hb')
      exact heff.moved i _ b.block rfl hi hp0 k hk hk'
  -- a pointer returned is below `2 ^ 64`, so the driver sees it as it is
  obtain ⟨j, hj⟩ := hg.exists_block
  refine ⟨_, ?_, fun _ => hp ▸ hg⟩
  rw [hrequest, ← hp]
  have := hg.tracks.live_lt hj
  exact World.call_of_run hrealloc (by omega)

/-- A request for a block that is granted, and how the heap grows. -/
structure Serving (op : TraceOp) (l : Ledger) (y y' : System) (σ σ' : Session) (p : Addr) : Prop
    extends Granted op l y y' σ' p where
  grows : Grows op.charge σ.heap σ'.heap

/-- A valid request for a block is one call of the session, whatever memory holds. -/
theorem Backed.exists_call (h : Backed blocks w l y σ) (hv : op.Valid l) (hasks : op.Asks)
    (hle : op.size ≤ LARGEST_SIZE) :
    ∃ d : Call, d.Valid LARGEST_SIZE σ.live ∧ d.asks = some ((op.size + 7) / 8 * 8) ∧
      ∀ w y, Backed blocks w l y σ → ∃ y',
        op.request myImpl blocks w = ((σ.call EXTENSION_SIZE d).1, y'.state.world) ∧
        ((σ.call EXTENSION_SIZE d).1 ≠ NULL →
          Granted op l y y' (σ.call EXTENSION_SIZE d).2 (σ.call EXTENSION_SIZE d).1) := by
  obtain ⟨hpos, -⟩ := hv.1 hasks
  rcases hasks with ht | ht
  · exact ⟨.malloc ((op.size + 7) / 8 * 8), words_le_largest hle, rfl,
      fun _ _ h => h.alloc ht hpos hle⟩
  · obtain ⟨b, hb⟩ := Option.ne_none_iff_exists'.mp (hv.2 (.inl ht))
    obtain ⟨i, hi⟩ := h.exists_block (h.handles _ b hb).1
    rw [h.tracks.follows.live] at hi
    have hlen : i < σ.live.length := (List.getElem?_eq_some_iff.mp hi).1
    exact ⟨.realloc i ((op.size + 7) / 8 * 8), ⟨hlen, words_le_largest hle⟩, rfl,
      fun _ _ h => h.realloc ht hb hi hle⟩

/-- That call serves the request if it returns a block. If it returns none, it would need more than
is left of the heap. -/
theorem Backed.serve_both {v : World Statics} {z : System} (h : Backed blocks w l y σ)
    (h' : Backed blocks v l z σ) (hv : op.Valid l) (hasks : op.Asks)
    (hle : op.size ≤ LARGEST_SIZE) :
    ((op.request myImpl blocks w).1 = NULL ∧ (op.request myImpl blocks v).1 = NULL ∧
        σ.heap.limit < σ.heap.brk + op.charge) ∨
      ∃ p y' z' σ', op.request myImpl blocks w = (p, y'.state.world) ∧
        op.request myImpl blocks v = (p, z'.state.world) ∧ p ≠ NULL ∧
        Serving op l y y' σ σ' p ∧ Serving op l z z' σ σ' p := by
  obtain ⟨hpos, -⟩ := hv.1 hasks
  obtain ⟨d, hd, hds, hanswer⟩ := h.exists_call hv hasks hle
  obtain ⟨y', hans, hg⟩ := hanswer w y h
  obtain ⟨z', hans', hg'⟩ := hanswer v z h'
  have hcharge : d.charge EXTENSION_SIZE = op.charge := by
    rw [Call.charge, hds, TraceOp.charge, if_pos hasks]
    show requestSize ((op.size + 7) / 8 * 8) + EXTENSION_SIZE = _
    rw [requestSize_words hle]
  have hgrows := h.tracks.good.call_grows (c := d)
  rw [hcharge] at hgrows
  by_cases hnull : (σ.call EXTENSION_SIZE d).1 = NULL
  · refine .inl ⟨by rw [hans, hnull], by rw [hans', hnull], ?_⟩
    rw [← hcharge]
    by_contra hroom
    -- a call with room fails only if it is for no bytes
    refine h.tracks.good.call_ne_null (by decide) hd ⟨_, hds⟩ ?_ (not_lt.mp hroom) hnull
    rintro rfl
    have hzero : 0 = (op.size + 7) / 8 * 8 := Option.some.inj hds
    omega
  · exact .inr ⟨_, y', z', _, hans, hans', hnull, ⟨hg hnull, hgrows⟩, ⟨hg' hnull, hgrows⟩⟩

theorem Backed.serve (h : Backed blocks w l y σ) (hv : op.Valid l) (hasks : op.Asks)
    (hle : op.size ≤ LARGEST_SIZE) :
    ((op.request myImpl blocks w).1 = NULL ∧ σ.heap.limit < σ.heap.brk + op.charge) ∨
      ∃ p y' σ', op.request myImpl blocks w = (p, y'.state.world) ∧ p ≠ NULL ∧
        Serving op l y y' σ σ' p := by
  rcases h.serve_both h hv hasks hle with ⟨hnull, -, hfull⟩ | ⟨p, y', -, σ', hans, -, hp0, hg, -⟩
  · exact .inl ⟨hnull, hfull⟩
  · exact .inr ⟨p, y', σ', hans, hp0, hg⟩

/-- **A request for a block** is granted, or it would need more than is left of the heap. -/
theorem Backed.request (h : Backed blocks w l y σ) (hv : op.Valid l) (hasks : op.Asks)
    (hle : op.size ≤ LARGEST_SIZE) :
    ((op.request myImpl blocks w).1 = NULL ∧ σ.heap.limit < σ.heap.brk + op.charge) ∨
      ∃ p y' σ', op.request myImpl blocks w = (p, y'.state.world) ∧ p ≠ NULL ∧
        Granted op l y y' σ' p ∧ Grows op.charge σ.heap σ'.heap := by
  refine (h.serve hv hasks hle).imp_right ?_
  rintro ⟨p, y', σ', hans, hp0, hg⟩
  exact ⟨p, y', σ', hans, hp0, hg.toGranted, hg.grows⟩

/-- A request to free a block is a call of the session, too. -/
theorem Backed.free_at (h : Backed blocks w l y σ) (ht : op.type = .free)
    (hb : l.handle op.index = some b) (hi : σ.live[i]? = some b.block) :
    ∃ y', myImpl.free (blocks op.index) w = y'.state.world ∧
      Backed blocks y'.state.world (l.after op NULL) y' (σ.call EXTENSION_SIZE (.free i)).2 ∧
      ∀ b ∈ l.others op, ∀ k < b.block.size,
        y'.state.mem (b.ptr + k) = y.state.mem (b.ptr + k) := by
  obtain ⟨hblive, hbptr⟩ := h.handles _ b hb
  rw [← h.tracks.follows.live] at hi
  have hlen : i < y.live.length := (List.getElem?_eq_some_iff.mp hi).1
  obtain ⟨y', hrun, ht', heff⟩ := h.tracks.call extension_default (N := LARGEST_SIZE)
    (c := .free i) (by decide) hlen
  have hrun' := hrun
  rw [Call.run, hi, Option.bind_some] at hrun'
  obtain ⟨⟨⟨⟩, s'⟩, hfree, he⟩ := Option.map_eq_some_iff.mp hrun'
  obtain ⟨-, rfl⟩ := Prod.mk.inj he
  -- the driver passes the pointer it has stored for the index
  have hworld : myImpl.free (blocks op.index) w = s'.world := by
    rw [hbptr]
    refine World.perform_of_run ?_
    rw [h.state]
    exact hfree
  have hothers : l.others op = l.live.erase b := by
    unfold Ledger.others
    rw [if_pos (.inr ht), hb]
  have hafter : l.after op NULL = ⟨l.others op, Function.update l.handle op.index none⟩ := by
    unfold Ledger.after
    rw [ht]
  have herase : (y.live.eraseIdx i : Multiset Block) = (l.others op).map Payload.block := by
    have h1 := h.live
    rw [coe_eraseIdx hi, ← Multiset.cons_erase hblive, Multiset.map_cons] at h1
    rw [hothers]
    exact (Multiset.cons_inj_right _).mp h1
  -- the indices other than that of the request keep their payloads
  have hkept : ∀ j b', Function.update l.handle op.index none j = some b' →
      l.handle j = some b' ∧ j ≠ op.index := fun j b' hj => by
    by_cases hji : j = op.index
    · subst hji
      rw [Function.update_self] at hj
      cases hj
    · exact ⟨by rwa [Function.update_of_ne hji] at hj, hji⟩
  refine ⟨⟨s', y.live.eraseIdx i⟩, hworld, ?_, fun b' hb' k hk => ?_⟩
  · rw [hafter]
    refine ⟨⟨ht'.follows, ht'.good.weaken False.elim⟩, rfl, herase,
      fun b' hb' => h.sizes b' (Multiset.mem_of_le others_le hb'), fun j b' hj => ?_,
      fun j k b' hj hk => h.distinct j k b' (hkept j b' hj).1 (hkept k b' hk).1⟩
    obtain ⟨hj', hji⟩ := hkept j b' hj
    exact ⟨h.mem_others hj' hji, (h.handles j b' hj').2⟩
  · -- the bytes of the others
    have hmem : b'.block ∈ y.live.eraseIdx i := by
      rw [← Multiset.mem_coe, herase]
      exact Multiset.mem_map_of_mem _ hb'
    obtain ⟨m, hmi, hm⟩ := List.mem_eraseIdx_iff_getElem?.mp hmem
    exact heff.others m b'.block hm hmi k hk

/-- **A request to free a block.** The other blocks keep their contents. -/
theorem Backed.free (h : Backed blocks w l y σ) (hv : op.Valid l) (ht : op.type = .free) :
    ∃ i y', myImpl.free (blocks op.index) w = y'.state.world ∧
      Backed blocks y'.state.world (l.after op NULL) y' (σ.call EXTENSION_SIZE (.free i)).2 ∧
      ∀ b ∈ l.others op, ∀ k < b.block.size,
        y'.state.mem (b.ptr + k) = y.state.mem (b.ptr + k) := by
  obtain ⟨b, hb⟩ := Option.ne_none_iff_exists'.mp (hv.2 (.inr ht))
  obtain ⟨i, hi⟩ := h.exists_block (h.handles _ b hb).1
  exact ⟨i, h.free_at ht hb (h.tracks.follows.live ▸ hi)⟩

/-- The indices that hold a block are those the account has a block for. -/
theorem holds_iff (h : ∀ i, i ∈ held ↔ l.handle i ≠ none) (p : Addr) (i : ℕ) :
    i ∈ op.holds held ↔ (l.after op p).handle i ≠ none := by
  unfold TraceOp.holds Ledger.after
  cases op.type with
  | alloc | realloc | free =>
    by_cases hi : i = op.index
    · simp [hi]
    · simp [hi, h i]
  | write => exact h i

end Backed

/-! ### Whole traces -/

/-- Sizes are positive and at most `N`, and an index is freed or reallocated only while it holds a
block. -/
def ValidOps (N : ℕ) : List TraceOp → Finset ℕ → Prop
  | [], _ => True
  | op :: ops, held =>
    ((op.Asks → 0 < op.size ∧ op.size ≤ N) ∧
      (op.type = .realloc ∨ op.type = .free → op.index ∈ held)) ∧ ValidOps N ops (op.holds held)

instance instDecidableValidOps (N : ℕ) : (ops : List TraceOp) → (held : Finset ℕ) →
    Decidable (ValidOps N ops held)
  | [], _ => inferInstanceAs (Decidable True)
  | op :: ops, held =>
    have : Decidable (ValidOps N ops (op.holds held)) := instDecidableValidOps N ops _
    inferInstanceAs (Decidable (_ ∧ _))

/-- What the requests of a trace may add to the heap. -/
def traceCharges (ops : List TraceOp) : ℕ := (ops.map TraceOp.charge).sum

/-- The memory for the heap is set aside, as `mem_init` does it. -/
structure World.SetAside (w : World Statics) : Prop where
  start : w.memStartBrk ≠ NULL
  max : w.own.memMaxAddr = w.memStartBrk + MAX_HEAP
  span : w.own.memMaxAddr + 2 ^ 31 ≤ 2 ^ 64

/-- Before the first trace the bins are empty too. -/
structure World.Ready (w : World Statics) : Prop extends w.SetAside where
  bins : ∀ n, n ≠ END_OF_HEAP_BIN → w.state.bin n = NULL

section Trace

variable {l : Ledger} {op : TraceOp} {ops : List TraceOp} {w : World Statics} {held : Finset ℕ}

/-- A request of a valid trace is valid in the account. -/
theorem ValidOps.head (h : ValidOps LARGEST_SIZE (op :: ops) held)
    (hheld : ∀ i, i ∈ held ↔ l.handle i ≠ none) :
    op.Valid l ∧ (op.Asks → op.size ≤ LARGEST_SIZE) := by
  obtain ⟨⟨hsize, hindex⟩, -⟩ := h
  have hlargest : LARGEST_SIZE < 2 ^ 31 := by decide
  exact ⟨⟨fun hasks => ⟨(hsize hasks).1, (hsize hasks).2.trans_lt hlargest⟩,
    fun ht => (hheld _).mp (hindex ht)⟩, fun hasks => (hsize hasks).2⟩

theorem traceCharges_cons : traceCharges (op :: ops) = op.charge + traceCharges ops := by
  simp [traceCharges]

/-- The driver's start: the heap is reset and `my_init` called. The allocator is a fresh one. -/
theorem World.Ready.init_backed (hw : w.Ready) (blocks : ℕ → Addr) :
    ∃ w' y, myImpl.init { w with memBrk := w.memStartBrk } = (0, w') ∧
      Backed blocks w' .empty y (Session.initial w.memStartBrk) ∧ y.live = [] := by
  obtain ⟨s, hs⟩ : ∃ s : State, s = { w.state with memBrk := w.memStartBrk } := ⟨_, rfl⟩
  have hf : Fresh s := by
    subst hs
    exact ⟨hw.start, rfl, hw.max, hw.span⟩
  have hworld : ({ w with memBrk := w.memStartBrk } : World Statics) = s.world := by
    rw [hs]
    rfl
  obtain ⟨p, s', hinit, rfl, hpost⟩ := myInit_spec hf
  have hcall : s.world.call myInit = (0, s'.world) := World.call_of_run hinit (by decide)
  have hstart : myImpl.init s.world = (0, s'.world) := by
    simp only [myImpl]
    rw [hcall]
    rfl
  -- what `my_init` leaves is a first state of the runs
  have hst : Started ⟨s', []⟩ := ⟨rfl, s, hf, fun n hn => by rw [hs]; exact hw.bins n hn, hinit⟩
  obtain ⟨b, hb, h0, hspan, hfollows⟩ := hst.follows
  obtain rfl : b = w.memStartBrk := by
    rw [← hb]
    show s'.memStartBrk = _
    rw [hpost.2.2.2.1, hs]
    rfl
  rw [hworld]
  exact ⟨s'.world, ⟨s', []⟩, hstart, ⟨⟨hfollows, (Session.good_initial h0 hspan).weaken False.elim⟩,
    rfl, rfl, fun b hb => absurd hb (Multiset.notMem_zero b), fun _ _ hb => (by cases hb),
    fun _ _ _ hb => (by cases hb)⟩, rfl⟩

theorem held_empty (i : ℕ) : i ∈ (∅ : Finset ℕ) ↔ Ledger.empty.handle i ≠ none := by
  simp [Ledger.empty]

theorem ready_blank (start : Addr) (h0 : 0 < start)
    (hspan : start + MAX_HEAP + 2 ^ 31 ≤ 2 ^ 64) :
    (State.blank start).world.Ready :=
  ⟨⟨h0.ne', rfl, hspan⟩, fun n _ => by
    simp [World.state, State.world, State.bin, State.blank, NULL]⟩

end Trace

end Dlmalloc
