import Dlmalloc.Refine.Headers
import Dlmalloc.Refine.TreeBin

/-!
# The heap in memory

`Rep s h` — memory holds the chunks and the bins of `h`; `Models s h` — and the first bin points to
the end of the heap, as it does between calls. The steps the calls are made of keep `Rep`:

* the edits of the bins (`Rep.insertChunk_spec`, `Rep.removeChunkOrVictim_spec`);
* writes in a window that holds no link of a chunk in a bin (`Rep.edit`, `Rep.tag`).

Every step leaves the payloads in use and the first bin alone (`Frame`).
-/

namespace Dlmalloc

open Heap

/-- Memory holds the chunks and the bins of `h`. -/
structure Rep (s : State) (h : Heap) : Prop where
  headers : Headers s h.chunks
  victim : s.bin VICTIM_BIN = pointer h.bins.victim
  bin : ∀ n, 2 ≤ n → n < NUM_OF_BINS → BinRep s h.bins n
  memStartBrk : s.memStartBrk = h.start
  memBrk : s.memBrk = h.brk
  memMaxAddr : s.memMaxAddr = h.limit

/-- Memory holds the heap `h`. -/
structure Models (s : State) (h : Heap) : Prop extends Rep s h where
  top : s.bin END_OF_HEAP_BIN = h.top.1

/-- The chunks in use. -/
def InUse (L : List Chunk) : Set Slot := {e | e ∈ usedSlots L}

/-- The free chunks. -/
def Free (L : List Chunk) : Set Slot := {e | e ∈ freeSlots L}

/-- A step that leaves the payloads of `U` and the pointer to the end of the heap alone. -/
structure Frame (U : Set Slot) (s s' : State) : Prop where
  keeps : Keeps U s s'
  top : s'.bin END_OF_HEAP_BIN = s.bin END_OF_HEAP_BIN

theorem Frame.refl (U : Set Slot) (s : State) : Frame U s s := ⟨.refl U s, rfl⟩

theorem Frame.trans {U : Set Slot} {s s' s'' : State} (h : Frame U s s') (h' : Frame U s' s'') :
    Frame U s s'' :=
  ⟨h.keeps.trans h'.keeps, h'.top.trans h.top⟩

theorem Frame.mono {U V : Set Slot} {s s' : State} (h : Frame U s s') (hV : V ⊆ U) :
    Frame V s s' :=
  ⟨h.keeps.mono hV, h.top⟩

section Rep

variable {ext : ℕ} {X : Multiset Slot} {h : Heap} {s s' : State} {c d : Chunk} {e : Slot}
  {pre C D post : List Chunk} {lo hi : ℕ}

/-! ### What a shape says of memory -/

theorem Heap.Shape.fits (hs : Shape ext X h) (hc : c ∈ h.chunks) : Fits c := by
  have h1 := (hs.bounds hc).2
  have h2 := hs.arena.brk_le
  have h3 := hs.arena.span
  exact ⟨(hs.sizes c hc).aligned, by omega⟩

theorem Heap.Shape.room (hs : Shape ext X h) : h.bins.binned.card + 1 < MAX_HEAP := by
  have h1 : h.bins.binned ≤ freeSlots h.chunks := hs.account ▸ Multiset.le_add_left _ _
  have h2 : (freeSlots h.chunks).card ≤ h.chunks.length := by
    rw [freeSlots, Multiset.coe_card, List.length_map]
    exact List.length_filter_le _ _
  have h3 := hs.tiles.length_le
  have h4 := Multiset.card_le_card h1
  have h5 := hs.arena.brk_le
  have h6 := hs.arena.limit_eq
  have h7 := hs.arena.start_le
  simp only [MAX_HEAP] at *
  omega

theorem Rep.holds (hr : Rep s h) (hs : Shape ext X h) : Holds (Free h.chunks) s h.bins where
  spread := hs.spread
  sized := fun e he => by
    obtain ⟨c, hc, -, rfl⟩ := mem_freeSlots.mp he
    exact (hs.fits hc).chunkSize (hr.headers c hc).word
  sorted := hs.sorted
  mem := fun e he => Multiset.mem_of_le (hs.account ▸ Multiset.le_add_left _ _) he
  nodup := (Multiset.nodup_add.mp hs.nodup).2.1
  few := Nat.lt_of_succ_lt hs.room
  victim := hr.victim
  bin := hr.bin

/-- A chunk in use and a free one do not overlap. -/
theorem Heap.Shape.apart (hs : Shape ext X h) : ∀ e ∈ InUse h.chunks, ∀ f ∈ Free h.chunks,
    e.1 + e.2 + 8 ≤ f.1 ∨ f.1 + f.2 + 8 ≤ e.1 := by
  intro e he f hf
  obtain ⟨c, hc, hcst, rfl⟩ := mem_usedSlots.mp he
  obtain ⟨d, hd, hdst, rfl⟩ := mem_freeSlots.mp hf
  rcases hs.tiles.apart hc hd with rfl | h' | h'
  · rw [hcst] at hdst
    cases hdst
  · exact .inl h'
  · exact .inr h'

/-- Links are no part of headers and footers. -/
theorem Headers.links {L : List Chunk} (hh : Headers s L) (ht : Tiles lo L hi)
    (hl : LinksOnly (Free L) s s') : Headers s' L := fun c hc => by
  have hout : ∀ x, x < c.addr + 16 ∧ c.addr ≤ x ∨ c.next ≤ x ∧ x < c.next + 8 →
      ∀ e ∈ Free L, ¬ Interior e x := fun x hx e he hint => by
    obtain ⟨d, hd, -, rfl⟩ := mem_freeSlots.mp he
    obtain ⟨h1, h2⟩ := hint
    simp only [Chunk.slot] at h1 h2
    rcases ht.apart hc hd with rfl | h' | h' <;> simp only [Chunk.next] at * <;> omega
  refine ⟨?_, fun hst => ?_⟩
  · rw [hl.load, (hh c hc).word]
    intro x h1 h2
    simp only [Field.offset, Field.width] at h1 h2
    exact hout x (.inl ⟨by omega, by omega⟩)
  · rw [hl.load, (hh c hc).footer hst]
    intro x h1 h2
    simp only [Field.offset, Field.width] at h1 h2
    exact hout x (.inr ⟨by omega, by omega⟩)

/-! ### Edits of the bins -/

/-- An edit of the bins that is one of links only. -/
theorem Rep.of_links {B : Bins} (hr : Rep s h) (hs : Shape ext X h)
    (hB : Holds (Free h.chunks) s' B) (hl : LinksOnly (Free h.chunks) s s') :
    Rep s' { h with bins := B } :=
  ⟨hr.headers.links hs.tiles hl, hB.victim, hB.bin, hl.memStartBrk.trans hr.memStartBrk,
    hl.memBrk.trans hr.memBrk, hl.memMaxAddr.trans hr.memMaxAddr⟩

/-- A loose chunk goes into its bin. -/
theorem Rep.insertChunk_spec (hr : Rep s h) (hs : Shape ext (e ::ₘ X) h) :
    Returns (insertChunk e.1) s fun _ s' =>
      Rep s' { h with bins := h.bins.insert e } ∧ Frame (InUse h.chunks) s s' := by
  obtain ⟨h24, h8⟩ := hs.free_size (.inl (Multiset.mem_cons_self _ _))
  have hfree : e ∈ Free h.chunks := by
    have h1 := hs.account
    rw [Multiset.cons_add] at h1
    show e ∈ freeSlots h.chunks
    rw [← h1]
    exact Multiset.mem_cons_self _ _
  have hnb : e ∉ h.bins.binned := fun hmem => by
    have h1 := hs.nodup
    rw [Multiset.cons_add, Multiset.nodup_cons] at h1
    exact h1.1 (Multiset.mem_add.mpr (.inr hmem))
  refine ((hr.holds hs).insertChunk_spec hfree h24 h8 hnb hs.room).mono fun _ s' h' =>
    ⟨hr.of_links hs h'.1 h'.2.1, h'.2.1.keeps hs.apart, h'.2.2⟩

/-- A chunk is taken out of its bin. -/
theorem Rep.removeChunk_spec (hr : Rep s h) (hs : Shape ext X h) (he : e ∈ h.bins.binned) :
    Returns (removeChunk e.1) s fun _ s' =>
      Rep s' { h with bins := h.bins.unbin e } ∧ Frame (InUse h.chunks) s s' :=
  ((hr.holds hs).removeChunk_spec he).mono fun _ _ h' =>
    ⟨hr.of_links hs h'.1 h'.2.1, h'.2.1.keeps hs.apart, h'.2.2⟩

/-- A chunk held is taken out, the victim or another one. -/
theorem Rep.removeChunkOrVictim_spec (hr : Rep s h) (hs : Shape ext (h.bins.victimSlot + X) h)
    (he : e ∈ h.bins.held) : Returns (removeChunkOrVictim e.1) s fun _ s' =>
      Rep s' { h with bins := h.bins.remove e } ∧ Frame (InUse h.chunks) s s' := by
  refine ((hr.holds hs).removeChunkOrVictim_spec he fun v hv => ?_).mono
    fun _ s' h' => ⟨hr.of_links hs h'.1 h'.2.1, h'.2.1.keeps hs.apart, h'.2.2⟩
  have h1 : v ∈ h.bins.victimSlot := Bins.mem_victimSlot.mpr hv
  show v ∈ freeSlots h.chunks
  rw [← hs.account, Multiset.mem_add, Multiset.mem_add]
  exact .inl (.inl h1)

/-- Another pointer in one of the first two bins. -/
theorem Rep.setBin {n p : ℕ} {v : Option Slot} (hr : Rep s h) (hn : n < 2)
    (hv : (s.setBin n p).bin VICTIM_BIN = pointer v) :
    Rep (s.setBin n p) { h with bins := { h.bins with victim := v } } :=
  ⟨fun c hc => ⟨by simp [(hr.headers c hc).word], fun h' => by simp [(hr.headers c hc).footer h']⟩,
    hv, fun m h2 hm => (hr.bin m h2 hm).of_load (fun _ _ => State.load_setBin)
      (State.bin_setBin_of_ne (by omega)), by simp [hr.memStartBrk], by simp [hr.memBrk],
    by simp [hr.memMaxAddr]⟩

theorem keeps_setBin (U : Set Slot) (s : State) (n p : ℕ) : Keeps U s (s.setBin n p) :=
  fun _ _ _ _ _ => by rw [State.setBin_mem]

theorem Rep.setTop {p : ℕ} (hr : Rep s h) : Rep (s.setBin END_OF_HEAP_BIN p) h :=
  hr.setBin (v := h.bins.victim) (by decide)
    ((State.bin_setBin_of_ne (by decide)).trans hr.victim)

theorem Rep.setVictim {v : Option Slot} (hr : Rep s h) :
    Rep (s.setBin VICTIM_BIN (pointer v)) { h with bins := { h.bins with victim := v } } :=
  hr.setBin (by decide) (State.bin_setBin_same (by decide))

/-! ### Edits of the row -/

/-- Writes off the link fields of the chunks in the bins. -/
theorem Rep.of_headers {L : List Chunk} (hr : Rep s h) (hs : Shape ext X h)
    (hw : Within lo hi s s')
    (hcells : ∀ e ∈ h.bins.binned, e.1 + e.2 + 8 ≤ lo ∨ hi ≤ e.1 + 16) (hnew : Headers s' L) :
    Rep s' { h with chunks := L } := by
  refine ⟨hnew, (hw.bin _).trans hr.victim, fun n h2 hn => ?_, hw.memStartBrk.trans hr.memStartBrk,
    hw.memBrk.trans hr.memBrk, hw.memMaxAddr.trans hr.memMaxAddr⟩
  refine (hr.holds hs).congr h2 hn (fun e he f hf => hw.load ?_) (hw.bin n)
  obtain ⟨k, hk, h16, hend⟩ := hf
  have he' : e ∈ h.bins.binned := Bins.mem_binned.mpr ⟨n, hn, he⟩
  have hek : e = (e.1, k) := (hr.holds hs).spread.eq_of_addr ((hr.holds hs).mem e he') hk rfl
  have := hcells e he'
  have h2 : e.2 = k := congrArg Prod.snd hek
  omega

/-- Replacing a segment whose free chunks are all loose. -/
theorem Rep.edit {i j : ℕ} {P Q : List Chunk} {t : State} (hr : Rep s h) (hs : Shape ext X h)
    (hL : h.chunks = P ++ C ++ Q) (hmid : C ≠ []) (hX : freeSlots C ≤ X)
    (hm : Tiles i C j) (hw : Within (i + 8) (j + 8) s t) (hnew : Headers t D) :
    Rep t { h with chunks := P ++ D ++ Q } := by
  have ht := hs.tiles
  have hh := hr.headers
  rw [hL] at ht hh
  have hsz : ∀ c ∈ P, 8 ≤ c.size := fun c hc => by
    have htop := hs.topLast
    obtain ⟨m, ms, rfl⟩ := List.exists_cons_of_ne_nil hmid
    rw [hL, List.append_assoc, List.cons_append, topLast_append] at htop
    have := (hs.sizes c (by simp [hL, hc])).least (htop.1 c hc)
    omega
  refine hr.of_headers hs hw (fun e he => ?_) (hh.edit ht hmid hsz hm hw hnew)
  -- a chunk in a bin is not in the segment
  have hfree : e ∈ freeSlots h.chunks := hs.account ▸ Multiset.mem_add.mpr (.inr he)
  have hnX : e ∉ X := fun heX =>
    Multiset.disjoint_left.mp (Multiset.nodup_add.mp hs.nodup).2.2 heX he
  obtain ⟨x, hx, hst, rfl⟩ := mem_freeSlots.mp hfree
  rw [hL] at hx
  simp only [List.mem_append] at hx
  rw [tiles_append] at ht
  obtain ⟨hi₂, ht, hpost⟩ := ht
  rw [tiles_append] at ht
  obtain ⟨lo₂, hpre, ht⟩ := ht
  have hlo : lo₂ = i := by
    obtain ⟨m, ms, rfl⟩ := List.exists_cons_of_ne_nil hmid
    exact ht.1.symm.trans hm.1
  subst hlo
  obtain rfl := ht.unique hm
  rcases hx with (hx | hx) | hx
  · have := (hpre.bounds hx).2
    simp only [Chunk.slot, Chunk.next] at *
    omega
  · exact absurd (Multiset.mem_of_le hX (mem_freeSlots.mpr ⟨x, hx, hst, rfl⟩)) hnX
  · have := (hpost.bounds hx).1
    simp only [Chunk.slot] at *
    omega

/-! ### Tags -/

theorem Chunk.word_or_previous (h8 : 8 ∣ c.size) :
    c.word ||| PREVIOUS_CHUNK_INUSE = { c with pinuse := true }.word := by
  rw [Chunk.word, LowBits.add_or (w := 3) h8 c.flags_lt (by decide), Chunk.word]
  simp only [Chunk.flags]
  split_ifs <;> rfl

theorem Chunk.word_clear_previous (hc : Fits c) :
    c.word &&& (2 ^ 64 - 1 - PREVIOUS_CHUNK_INUSE) = { c with pinuse := false }.word := by
  rw [Chunk.word, LowBits.add_and_compl (w := 3) hc.aligned c.flags_lt (by decide) (by decide)
    hc.word_lt, Chunk.word]
  simp only [Chunk.flags]
  split_ifs <;> first | contradiction | rfl

theorem Chunk.word_or_current (h8 : 8 ∣ c.size) :
    c.word ||| CURRENT_CHUNK_INUSE = { c with status := .inuse }.word := by
  rw [Chunk.word, LowBits.add_or (w := 3) h8 c.flags_lt (by decide), Chunk.word]
  simp only [Chunk.flags]
  split_ifs <;> rfl

theorem Chunk.word_clear_current (hc : Fits c) :
    c.word &&& (2 ^ 64 - 1 - CURRENT_CHUNK_INUSE) = { c with status := .free }.word := by
  rw [Chunk.word, LowBits.add_and_compl (w := 3) hc.aligned c.flags_lt (by decide) (by decide)
    hc.word_lt, Chunk.word]
  simp only [Chunk.flags]
  split_ifs <;> first | contradiction | rfl

/-- Another tag in the header of `d`. -/
theorem Rep.tag {b : Bool} (hr : Rep s h) (hs : Shape ext X h) (hL : h.chunks = pre ++ d :: post) :
    Rep (s.store .currentSize d.addr { d with pinuse := b }.word)
        { h with chunks := tag d.addr b h.chunks } ∧
      Frame (InUse h.chunks) s (s.store .currentSize d.addr { d with pinuse := b }.word) := by
  have hd : d ∈ h.chunks := Shape.mem_chunks hL
  have hfit := hs.fits hd
  have htl := hs.tiles_of hL
  have hw : Within (d.addr + 8) (d.addr + 16) s
      (s.store .currentSize d.addr { d with pinuse := b }.word) :=
    (Within.refl _ _ s).store (by simp only [Field.offset]; omega)
      (by simp only [Field.offset, Field.width]; omega)
  -- where the other chunks lie
  have hsep : ∀ x ∈ h.chunks, x = d ∨ x.next ≤ d.addr ∨ d.next ≤ x.addr := fun x hx => by
    rcases hs.tiles.apart hx hd with h' | h' | h'
    · exact .inl h'
    · exact .inr (.inl h')
    · exact .inr (.inr h')
  refine ⟨hr.of_headers hs hw (fun e he => ?_) ?_, hw.keeps fun e he => ?_, rfl⟩
  · have hfree : e ∈ freeSlots h.chunks := hs.account ▸ Multiset.mem_add.mpr (.inr he)
    obtain ⟨x, hx, -, rfl⟩ := mem_freeSlots.mp hfree
    rcases hsep x hx with rfl | h' | h' <;> simp only [Chunk.slot, Chunk.next] at * <;> omega
  · rw [hL, tag_mid htl]
    intro x hx
    rw [List.mem_append, List.mem_cons] at hx
    have hother : x ∈ pre ∨ x ∈ post → HeaderRep
        (s.store .currentSize d.addr { d with pinuse := b }.word) x := fun hx => by
      have hxm : x ∈ h.chunks := by
        rw [hL]
        rcases hx with hx | hx <;> simp [hx]
      refine hw.header (hr.headers x hxm) ?_
      rcases hx with hx | hx
      · have := htl.around.1 x hx
        simp only [Chunk.next] at *
        omega
      · have := htl.around.2 x hx
        simp only [Chunk.next] at *
        omega
    rcases hx with hx | rfl | hx
    · exact hother (.inl hx)
    · have hold := hr.headers d hd
      have hfit' : Fits { d with pinuse := b } := ⟨hfit.aligned, hfit.below⟩
      refine ⟨?_, fun hst => ?_⟩
      · rw [State.load_store_same]
        exact Nat.mod_eq_of_lt hfit'.word_lt
      · have hleast := (hs.sizes d hd).least (by
          intro htop
          rw [htop] at hst
          cases hst)
        refine (State.load_store_of_disjoint ?_).trans (hold.footer hst)
        simp only [Field.offset, Field.width, Chunk.next]
        omega
    · exact hother (.inr hx)
  · obtain ⟨x, hx, -, rfl⟩ := mem_usedSlots.mp he
    rcases hsep x hx with rfl | h' | h' <;> simp only [Chunk.slot, Chunk.next] at * <;> omega

theorem Rep.setPreviousInuse_spec (hr : Rep s h) (hs : Shape ext X h)
    (hL : h.chunks = pre ++ d :: post) : Returns (setPreviousInuse d.addr) s fun _ s' =>
      Rep s' { h with chunks := Dlmalloc.tag d.addr true h.chunks } ∧
        Frame (InUse h.chunks) s s' := by
  have hd : d ∈ h.chunks := Shape.mem_chunks hL
  refine .intro (setPreviousInuse_apply s d.addr) ?_
  rw [(hr.headers d hd).word, Chunk.word_or_previous (hs.fits hd).aligned]
  exact hr.tag hs hL

theorem Rep.clearPreviousInuse_spec (hr : Rep s h) (hs : Shape ext X h)
    (hL : h.chunks = pre ++ d :: post) : Returns (clearPreviousInuse d.addr) s fun _ s' =>
      Rep s' { h with chunks := Dlmalloc.tag d.addr false h.chunks } ∧
        Frame (InUse h.chunks) s s' := by
  have hd : d ∈ h.chunks := Shape.mem_chunks hL
  refine .intro (clearPreviousInuse_apply s d.addr) ?_
  rw [(hr.headers d hd).word, Chunk.word_clear_previous (hs.fits hd)]
  exact hr.tag hs hL

end Rep

end Dlmalloc
