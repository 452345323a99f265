import Mathlib.Data.List.GetD
import ConicSaddle.Proofs.Cone.Layout

/-!
# Packing and unpacking

Between arrays whose sizes fit, packing and unpacking succeed and are the blockwise maps of
`ConicSaddle.Proofs.Cone.Layout`.

* `exists_packBlocks`, `exists_packEntries`, `exists_pack`: packing;
* `exists_unpackBlocks`, `exists_unpack`: unpacking;
* `PackingFits`: the sizes of a call that succeeds, `PackingFits.packed` and
  `PackingFits.unpacked`: what it leaves;
* `pack_cases`, `entries_of_pack`: how packing ends, and what it leaves alone.
-/

namespace ConicSaddle

open ConeDims (total)
open Vec (entries)

variable {α : Type} [Scalar α] {d : ℕ}

/-! ### Packing -/

theorem length_packTriangle {k : ℕ} (A : Grid k k α) : (packTriangle A).length = triangle k := by
  unfold packTriangle
  rw [List.length_map, length_lowerTriangle]

/-- A semidefinite block in packed layout. -/
theorem getD_packTriangle {k : ℕ} {x : Vector α (k * k)} {y : ℕ → α}
    (hxy : ∀ i < k * k, entries x.toArray i = y i) (t : ℕ) :
    (packTriangle (⟨x⟩ : Grid k k α)).getD t 0 = (ConeBlock.semidefinite k).packed y t := by
  unfold packTriangle
  show _ = List.getD (List.map _ _) t 0
  congr 1
  refine List.map_congr_left fun p _ => ?_
  rw [← Vec.entries_grid, hxy _ (Grid.place_lt p.1 p.2)]

/-- The semidefinite blocks from a place on, in packed layout. -/
theorem exists_packBlocks (src : Array α) (orders : List ℕ) (start : ℕ)
    (h : start + total orders (fun k => k * k) ≤ src.size) :
    ∃ packed, packBlocks src orders start = .ok packed ∧
      packed.length = total orders triangle ∧
      ∀ t < packed.length, packed.getD t 0 =
        blockwise ConeBlock.unpackedSize ConeBlock.packedSize ConeBlock.packed
          (orders.map .semidefinite) (shift start (entries src)) t := by
  induction orders generalizing start with
  | nil => exact ⟨[], rfl, rfl, nofun⟩
  | cons k orders ih =>
    rw [ConeDims.total_cons] at h
    obtain ⟨block, hblock, hentries⟩ :=
      Vec.exists_slice src start (k * k) (by omega)
    obtain ⟨rest, hrest, hlength, hpacked⟩ := ih (start + k * k) (by omega)
    refine ⟨packTriangle (⟨block⟩ : Grid k k α) ++ rest, ?_, ?_, ?_⟩
    · unfold packBlocks
      rw [hblock, Checked.ok_bind, hrest]
      rfl
    · rw [List.length_append, length_packTriangle, hlength, ConeDims.total_cons]
    · intro t ht
      rw [List.length_append, length_packTriangle] at ht
      rw [List.map_cons]
      by_cases htk : t < (ConeBlock.semidefinite k).packedSize
      · rw [blockwise_of_lt htk, List.getD_append _ _ _ _
          (by rwa [length_packTriangle]), getD_packTriangle hentries]
        rfl
      · obtain ⟨u, rfl⟩ := Nat.exists_eq_add_of_le (Nat.not_lt.mp htk)
        have hk : (ConeBlock.semidefinite k).packedSize = triangle k := rfl
        rw [blockwise_cons_add, hk, List.getD_append_right _ _ _ _
          (by rw [length_packTriangle]; omega), length_packTriangle, Nat.add_sub_cancel_left,
          hpacked u (by omega), shift_shift]
        rfl

/-- The entries of a vector in packed layout. -/
theorem exists_packEntries (src : Array α) (dims : ConeDims) (mnl : ℕ)
    (hsize : src.size = mnl + dims.unpackedSize) (hfits : src.size < Word.limit) :
    ∃ packed, packEntries src dims mnl = .ok packed ∧ packed.size = mnl + dims.packedSize ∧
      ∀ t < packed.size, entries packed t = packedVector dims mnl (entries src) t := by
  have hunpacked := dims.unpackedSize_eq
  have hpacked := dims.packedSize_eq
  have hlinear := ConeDims.numelLinear_eq_ok (show dims.unpackedSize < Word.limit by omega)
  obtain ⟨head, hhead, hentries⟩ :=
    Vec.exists_slice src 0 (mnl + dims.linearSize) (by omega)
  obtain ⟨blocks, hblocks, hlength, hpackedBlocks⟩ :=
    exists_packBlocks src dims.s (mnl + dims.linearSize) (by omega)
  have hsum : head.toArray.size + blocks.toArray.size = mnl + dims.packedSize := by
    rw [head.size_toArray, List.size_toArray, hlength, hpacked, Nat.add_assoc]
  refine ⟨head.toArray ++ blocks.toArray, ?_, ?_, ?_⟩
  · unfold packEntries
    rw [hlinear, Checked.ok_bind, Word.add_of_lt (by omega), Checked.ok_bind, hhead,
      Checked.ok_bind, hblocks]
    rfl
  · rw [Array.size_append, hsum]
  · intro t ht
    rw [Array.size_append] at ht
    rw [Vec.entries_append _ _ ht, packedVector_eq, head.size_toArray]
    by_cases htl : t < mnl + dims.linearSize
    · rw [if_pos htl, if_pos htl, hentries t htl, Nat.zero_add]
    · rw [if_neg htl, if_neg htl, Vec.entries_toArray, hpackedBlocks]
      rw [head.size_toArray, List.size_toArray] at ht
      omega

/-- Packing between sizes that fit. -/
theorem exists_pack {src : Array α} {dst : Vector α d} {dims : ConeDims} {mnl offset u p : ℕ}
    (hu : dims.numelUnpacked = .ok u) (hp : dims.numelPacked = .ok p)
    (hsize : src.size = mnl + u) (hfits : src.size < Word.limit)
    (hroom : offset + (mnl + p) ≤ d) (hstop : offset + (mnl + p) < Word.limit) :
    ∃ dst', pack src dst dims mnl offset = .ok ⟨.ok (), dst'⟩ ∧
      ∀ i < d, entries dst'.toArray i =
        if offset ≤ i ∧ i < offset + (mnl + p) then
          packedVector dims mnl (entries src) (i - offset)
        else entries dst.toArray i := by
  have hu' := ConeDims.numelUnpacked_eq_ok hu
  have hp' := ConeDims.numelPacked_eq_ok hp
  obtain ⟨packed, hpacked, hlength, hentries⟩ :=
    exists_packEntries src dims mnl (by omega) hfits
  rw [← hp'] at hlength
  obtain ⟨dst', hdst, hdst'⟩ :=
    Vec.exists_splice dst offset packed (by omega)
  refine ⟨dst', ?_, ?_⟩
  · unfold pack
    rw [hu, hp]
    simp only [Checked.ok_bind, Word.add_of_lt (show mnl + p < Word.limit by omega),
      Word.add_of_lt (show mnl + u < Word.limit by omega), checkLength, if_pos hsize,
      Word.add_of_lt hstop, if_pos hroom, hpacked, hdst, Checked.pure_eq_ok]
  · intro i hi
    rw [hdst' i hi, hlength]
    by_cases hin : offset ≤ i ∧ i < offset + (mnl + p)
    · rw [if_pos hin, if_pos hin, hentries _ (by omega)]
    · rw [if_neg hin, if_neg hin]

/-! ### Unpacking -/

/-- A list paired with the entries of another one at the same places. -/
theorem zipWith_eq_map {β γ : Type} [BEq β] [LawfulBEq β] (f : β → α → γ) {places : List β}
    (hnodup : places.Nodup) {values : List α} (hlength : values.length = places.length) :
    places.zipWith f values = places.map fun p => f p (values.getD (places.idxOf p) 0) := by
  apply List.ext_getElem
  · rw [List.length_zipWith, List.length_map, hlength, Nat.min_self]
  · intro t h₁ h₂
    rw [List.length_map] at h₂
    rw [List.getElem_zipWith, List.getElem_map, hnodup.idxOf_getElem,
      List.getD_eq_getElem _ _ (hlength ▸ h₂)]

/-- A semidefinite block that a packed layout stands for. -/
theorem entries_unpackTriangle {k : ℕ} (A : Grid k k α) {values : Vector α (triangle k)}
    {y : ℕ → α} (hy : ∀ t < triangle k, entries values.toArray t = y t) {i : ℕ} (hi : i < k * k) :
    entries (unpackTriangle A values.toArray.toList).entries.toArray i =
      (ConeBlock.semidefinite k).unpacked y i := by
  have hk := Grid.rows_pos ⟨i, hi⟩
  let r : Fin k := ⟨i % k, Nat.mod_lt _ hk⟩
  let c : Fin k := ⟨i / k, Nat.div_lt_of_lt_mul hi⟩
  have hplace : i = r + k * c := (Nat.mod_add_div i k).symm
  have hindex : (lowerTriangle k).idxOf (lowerPlace r c) < triangle k := by
    rw [← length_lowerTriangle]
    exact List.idxOf_lt_length_of_mem (lowerPlace_mem r c)
  have hvalue : values.toArray.toList.getD ((lowerTriangle k).idxOf (lowerPlace r c)) 0 =
      y ((lowerTriangle k).idxOf (lowerPlace r c)) := by
    rw [← hy _ hindex, ← Vec.entries_toArray, Array.toArray_toList]
  unfold unpackTriangle ConeBlock.unpacked ConeBlock.unpackedAt
  simp only [dif_pos hi]
  conv_lhs => rw [hplace]
  rw [Vec.entries_grid, zipWith_eq_map _ (nodup_lowerTriangle k)
    (by rw [Array.length_toList, values.size_toArray, length_lowerTriangle])]
  refine (Grid.get_writeSymm A _ r c).trans ?_
  rw [hvalue]

/-- The semidefinite blocks written over a vector, from a place of their packed layout on. -/
theorem exists_unpackBlocks (src : Array α) (orders : List ℕ) (packed start : ℕ)
    (dst : Vector α d) (hsrc : packed + total orders triangle ≤ src.size)
    (hdst : start + total orders (fun k => k * k) ≤ d) :
    ∃ dst', unpackBlocks src orders packed start dst = .ok dst' ∧
      ∀ i < d, entries dst'.toArray i =
        if start ≤ i ∧ i < start + total orders (fun k => k * k) then
          blockwise ConeBlock.packedSize ConeBlock.unpackedSize ConeBlock.unpacked
            (orders.map .semidefinite) (shift packed (entries src)) (i - start)
        else entries dst.toArray i := by
  induction orders generalizing packed start dst with
  | nil =>
    refine ⟨dst, rfl, ?_⟩
    intro i _
    have hempty : ¬(start ≤ i ∧ i < start + 0) := by omega
    exact (if_neg hempty).symm
  | cons k orders ih =>
    rw [ConeDims.total_cons] at hsrc hdst
    obtain ⟨values, hvalues, hvalues'⟩ := Vec.exists_slice src packed (triangle k) (by omega)
    obtain ⟨old, hold, -⟩ := Vec.exists_slice dst.toArray start (k * k)
      (by rw [dst.size_toArray]; omega)
    let block := unpackTriangle (⟨old⟩ : Grid k k α) values.toArray.toList
    obtain ⟨mid, hmid, hmid'⟩ := Vec.exists_splice dst start block.entries.toArray
      (by rw [block.entries.size_toArray]; omega)
    obtain ⟨dst', hdst', hentries⟩ :=
      ih (packed + triangle k) (start + k * k) mid (by omega) (by omega)
    refine ⟨dst', ?_, ?_⟩
    · unfold unpackBlocks
      rw [hvalues, Checked.ok_bind, hold, Checked.ok_bind]
      exact (congrArg (· >>= _) hmid).trans hdst'
    · intro i hi
      rw [hentries i hi, hmid' i hi, block.entries.size_toArray, ConeDims.total_cons, List.map_cons]
      have hk : (ConeBlock.semidefinite k).unpackedSize = k * k := rfl
      by_cases hlater : start + k * k ≤ i ∧ i < start + k * k + total orders fun k => k * k
      · obtain ⟨u, rfl⟩ := Nat.exists_eq_add_of_le hlater.1
        have hsub : start + k * k + u - start = (ConeBlock.semidefinite k).unpackedSize + u := by
          omega
        rw [if_pos hlater, if_pos (by omega), hsub, blockwise_cons_add, shift_shift,
          Nat.add_sub_cancel_left]
        rfl
      · rw [if_neg hlater]
        by_cases hin : start ≤ i ∧ i < start + k * k
        · have hlt : i - start < (ConeBlock.semidefinite k).unpackedSize := by omega
          rw [if_pos hin, if_pos (by omega), blockwise_of_lt hlt]
          exact entries_unpackTriangle _ hvalues' (by omega)
        · rw [if_neg hin, if_neg (by omega)]

/-- Unpacking between sizes that fit. -/
theorem exists_unpack (src : Array α) (dst : Vector α d) {dims : ConeDims} {mnl offset u p : ℕ}
    (hu : dims.numelUnpacked = .ok u) (hp : dims.numelPacked = .ok p)
    (hsize : d = mnl + u) (hfits : d < Word.limit)
    (hroom : offset + (mnl + p) ≤ src.size) (hstop : offset + (mnl + p) < Word.limit) :
    ∃ dst', unpack src dst dims mnl offset = .ok ⟨.ok (), dst'⟩ ∧
      ∀ i < d, entries dst'.toArray i =
        unpackedVector dims mnl (shift offset (entries src)) i := by
  have hu' := ConeDims.numelUnpacked_eq_ok hu
  have hp' := ConeDims.numelPacked_eq_ok hp
  have hunpacked := dims.unpackedSize_eq
  have hpacked := dims.packedSize_eq
  have hlinear := ConeDims.numelLinear_eq_ok (show dims.unpackedSize < Word.limit by omega)
  obtain ⟨part, hpart, hpart'⟩ := Vec.exists_slice src offset (mnl + p) hroom
  obtain ⟨head, hhead, hhead'⟩ := Vec.exists_slice part.toArray 0 (mnl + dims.linearSize)
    (by rw [part.size_toArray]; omega)
  obtain ⟨mid, hmid, hmid'⟩ := Vec.exists_splice dst 0 head.toArray
    (by rw [head.size_toArray]; omega)
  obtain ⟨dst', hdst', hentries⟩ := exists_unpackBlocks part.toArray dims.s (mnl + dims.linearSize)
    (mnl + dims.linearSize) mid (by rw [part.size_toArray]; omega) (by omega)
  refine ⟨dst', ?_, ?_⟩
  · unfold unpack
    rw [hp, Checked.ok_bind, Word.add_of_lt (by omega), Checked.ok_bind,
      Word.add_of_lt (by omega), Checked.ok_bind, if_pos hroom, hu]
    simp only [Checked.ok_bind, Word.add_of_lt (show mnl + u < Word.limit by omega), checkLength,
      if_pos hsize, hlinear, Word.add_of_lt (show mnl + dims.linearSize < Word.limit by omega),
      hpart, hhead, hmid, hdst', Checked.pure_eq_ok]
  · intro i hi
    rw [hentries i hi, hmid' i hi, head.size_toArray, unpackedVector_eq]
    by_cases hil : i < mnl + dims.linearSize
    · rw [if_neg (by omega), if_pos (by omega), if_pos hil, hhead' _ (by omega), Nat.zero_add,
        hpart' _ (by omega), Nat.sub_zero]
      rfl
    · have hagree : AgreeTo (total (dims.s.map .semidefinite) ConeBlock.packedSize)
          (shift (mnl + dims.linearSize) (entries part.toArray))
          (shift (mnl + dims.linearSize) (shift offset (entries src))) := by
        intro t ht
        rw [ConeDims.total_map] at ht
        have ht' : t < total dims.s triangle := ht
        exact hpart' _ (by omega)
      have htotal : total (dims.s.map .semidefinite) ConeBlock.unpackedSize =
          total dims.s fun k => k * k := ConeDims.total_map _ _ _
      rw [if_pos (by omega), if_neg hil]
      exact blockwise_congr (fun b _ => ConeBlock.isLocal_unpacked b) hagree _ (by omega)

/-! ### Calls that succeed -/

/-- The sizes between which packing and unpacking succeed: `n` entries in unpacked layout, and `d`
entries that have room for the packed layout at an offset. -/
structure PackingFits (dims : ConeDims) (mnl offset n d : ℕ) : Prop where
  size_eq : n = mnl + dims.unpackedSize
  size_lt : n < Word.limit
  room : offset + (mnl + dims.packedSize) ≤ d
  stop_lt : offset + (mnl + dims.packedSize) < Word.limit

section

variable {dims : ConeDims} {mnl offset n : ℕ}

theorem PackingFits.unpackedSize_lt (h : PackingFits dims mnl offset n d) :
    dims.unpackedSize < Word.limit := by
  have hsize := h.size_eq
  have hlt := h.size_lt
  omega

/-- Packing succeeds between such sizes only, and otherwise leaves the vector as it was. -/
theorem pack_cases {src : Array α} {dst : Vector α d}
    {reply : Reply DimensionError Unit (Vector α d)}
    (h : pack src dst dims mnl offset = .ok reply) :
    reply.answer = .ok () ∧ PackingFits dims mnl offset src.size d ∨
      (∃ e, reply.answer = .error e) ∧ reply.state = dst := by
  simp only [pack, Checked.bind_eq_ok] at h
  obtain ⟨p, hp, needed, hneeded, u, hu, expected, hexpected, h⟩ := h
  obtain ⟨rfl, -⟩ := Word.add_eq_ok hneeded
  obtain ⟨rfl, hlimit⟩ := Word.add_eq_ok hexpected
  rw [ConeDims.numelUnpacked_eq_ok hu] at hlimit h
  rw [ConeDims.numelPacked_eq_ok hp] at h
  by_cases hsize : src.size = mnl + dims.unpackedSize
  · rw [checkLength, if_pos hsize] at h
    simp only [Checked.bind_eq_ok] at h
    obtain ⟨stop, hstop, h⟩ := h
    obtain ⟨rfl, hstoplt⟩ := Word.add_eq_ok hstop
    split at h
    · next hroom =>
      simp only [Checked.bind_eq_ok] at h
      obtain ⟨packed, -, dst', -, h⟩ := h
      cases h
      exact .inl ⟨rfl, hsize, hsize ▸ hlimit, hroom, hstoplt⟩
    · cases h
      exact .inr ⟨⟨_, rfl⟩, rfl⟩
  · rw [checkLength, if_neg hsize] at h
    cases h
    exact .inr ⟨⟨_, rfl⟩, rfl⟩

theorem fits_of_pack {src : Array α} {dst dst' : Vector α d}
    (h : pack src dst dims mnl offset = .ok ⟨.ok (), dst'⟩) :
    PackingFits dims mnl offset src.size d := by
  rcases pack_cases h with ⟨-, fits⟩ | ⟨⟨e, he⟩, -⟩
  · exact fits
  · cases he

/-- Unpacking succeeds between such sizes only. -/
theorem fits_of_unpack {src : Array α} {dst dst' : Vector α d}
    (h : unpack src dst dims mnl offset = .ok ⟨.ok (), dst'⟩) :
    PackingFits dims mnl offset d src.size := by
  simp only [unpack, Checked.bind_eq_ok] at h
  obtain ⟨p, hp, needed, hneeded, stop, hstop, h⟩ := h
  obtain ⟨rfl, -⟩ := Word.add_eq_ok hneeded
  obtain ⟨rfl, hstoplt⟩ := Word.add_eq_ok hstop
  rw [ConeDims.numelPacked_eq_ok hp] at hstoplt h
  split at h
  · next hroom =>
    simp only [Checked.bind_eq_ok] at h
    obtain ⟨u, hu, expected, hexpected, h⟩ := h
    obtain ⟨rfl, hlimit⟩ := Word.add_eq_ok hexpected
    rw [ConeDims.numelUnpacked_eq_ok hu] at hlimit h
    by_cases hsize : d = mnl + dims.unpackedSize
    · exact ⟨hsize, hsize ▸ hlimit, hroom, hstoplt⟩
    · rw [checkLength, if_neg hsize] at h
      cases h
  · cases h

/-- Packing between sizes that fit succeeds. -/
theorem PackingFits.packed {src : Array α} (h : PackingFits dims mnl offset src.size d)
    (dst : Vector α d) :
    ∃ dst', pack src dst dims mnl offset = .ok ⟨.ok (), dst'⟩ ∧
      ∀ i < d, entries dst'.toArray i =
        if offset ≤ i ∧ i < offset + (mnl + dims.packedSize) then
          packedVector dims mnl (entries src) (i - offset)
        else entries dst.toArray i :=
  exists_pack (ConeDims.numelUnpacked_of_lt h.unpackedSize_lt)
    (ConeDims.numelPacked_of_lt h.unpackedSize_lt) h.size_eq h.size_lt h.room h.stop_lt

/-- Whatever packing answers, it changes no entry in front of the offset or behind the packed
layout. -/
theorem entries_of_pack {src : Array α} {dst : Vector α d}
    {reply : Reply DimensionError Unit (Vector α d)}
    (h : pack src dst dims mnl offset = .ok reply) {i : ℕ} (hi : i < d)
    (hout : i < offset ∨ offset + (mnl + dims.packedSize) ≤ i) :
    entries reply.state.toArray i = entries dst.toArray i := by
  rcases pack_cases h with ⟨-, fits⟩ | ⟨-, hstate⟩
  · obtain ⟨dst', hdst', hentries⟩ := fits.packed dst
    cases hdst'.symm.trans h
    rw [hentries i hi, if_neg (by omega)]
  · rw [hstate]

/-- Unpacking between sizes that fit succeeds. -/
theorem PackingFits.unpacked {src : Array α} (h : PackingFits dims mnl offset d src.size)
    (dst : Vector α d) :
    ∃ dst', unpack src dst dims mnl offset = .ok ⟨.ok (), dst'⟩ ∧
      ∀ i < d, entries dst'.toArray i =
        unpackedVector dims mnl (shift offset (entries src)) i :=
  exists_unpack src dst (ConeDims.numelUnpacked_of_lt h.unpackedSize_lt)
    (ConeDims.numelPacked_of_lt h.unpackedSize_lt) h.size_eq h.size_lt h.room h.stop_lt

end

end ConicSaddle
