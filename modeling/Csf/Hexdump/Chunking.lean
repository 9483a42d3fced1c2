import Csf.Hexdump.Lossless

/-!
# Hexdump: dependence on how the input is delivered

The offset advances by 16 for every read result, whatever its length, and every
result gets a line of its own. So two deliveries of one stream are dumped alike,
with offsets that count the bytes shown, exactly when neither has a short
result before its last one.
-/

namespace Csf.Hexdump

open Csf.Lib Csf.Lib.Hex

/-- The offset at the start of a line. -/
def printedOffset (l : List UInt8) : Nat := ofHexDigits (l.take 8)

/-- Every line starts with the number of bytes shown before it, modulo 2^32. -/
def OffsetsTruthful (out : List UInt8) : Prop :=
  ∀ k l, (textLines out)[k]? = some l →
    printedOffset l = (((textLines out).take k).flatMap readColumns).length % 2 ^ 32

/-- No read result before the last is short. -/
def FullButLast (chunks : List Chunk) : Prop := ∀ c ∈ chunks.dropLast, c.val.length = 16

/-! ## Offsets -/

theorem printedOffset_lineBody (k : Nat) (bytes : List UInt8) :
    printedOffset (lineBody k bytes) = 16 * k % 2 ^ 32 := by
  have htake : (lineBody k bytes).take 8 = hexDigits 8 (16 * k % 2 ^ 32) := by
    simp only [lineBody, List.append_assoc]
    rw [List.take_append_of_le_length (by simp), List.take_of_length_le (by simp)]
  rw [printedOffset, htake, ofHexDigits_hexDigits]
  exact Nat.mod_eq_of_lt (Nat.mod_lt _ (by decide))

/-- The bytes on the first `k` lines of a dump are the first `k` chunks. -/
theorem shown_before (chunks : List Chunk) (k : Nat) :
    ((textLines (dumpLines chunks).flatten).take k).flatMap readColumns =
      stream (chunks.take k) := by
  rw [List.flatMap_def, List.map_take, map_readColumns_dump, ← List.map_take, stream]

/-- What truthful offsets say about the chunks. -/
theorem offsetsTruthful_iff (chunks : List Chunk) :
    OffsetsTruthful (dumpLines chunks).flatten ↔
      ∀ k, k < chunks.length → 16 * k % 2 ^ 32 = (stream (chunks.take k)).length % 2 ^ 32 := by
  unfold OffsetsTruthful
  simp only [shown_before]
  rw [textLines_dump]
  constructor
  · intro h k hk
    have hline : (chunks.mapIdx fun k c => lineBody k c.val)[k]? =
        some (lineBody k chunks[k].val) := by simp [hk]
    rw [← h k _ hline, printedOffset_lineBody]
  · intro h k l hl
    rw [List.getElem?_mapIdx] at hl
    obtain ⟨c, hc, rfl⟩ := Option.map_eq_some_iff.mp hl
    rw [printedOffset_lineBody]
    exact h k (List.getElem?_eq_some_iff.mp hc).1

/-! ## Full deliveries -/

theorem length_stream_take_succ {chunks : List Chunk} {k : Nat} {c : Chunk}
    (hc : chunks[k]? = some c) :
    (stream (chunks.take (k + 1))).length = (stream (chunks.take k)).length + c.val.length := by
  rw [List.take_add_one, hc, stream, List.map_append, List.flatten_append, List.length_append]
  simp [stream]

/-- Truthful offsets leave room for a short result at the end only. -/
theorem fullButLast_of_offsets {chunks : List Chunk}
    (h : ∀ k, k < chunks.length → 16 * k % 2 ^ 32 = (stream (chunks.take k)).length % 2 ^ 32)
    (hne : ∀ c ∈ chunks, c.val ≠ []) : FullButLast chunks := by
  intro c hc
  obtain ⟨k, hk⟩ := List.mem_iff_getElem?.mp hc
  have hlt : k + 1 < chunks.length := by
    have := (List.getElem?_eq_some_iff.mp hk).1
    rw [List.length_dropLast] at this
    omega
  have hget : chunks[k]? = some c := by
    rw [List.dropLast_eq_take, List.getElem?_take] at hk
    split at hk
    · exact hk
    · exact absurd hk (by simp)
  have hhere := h k (by omega)
  have hnext := h (k + 1) hlt
  rw [length_stream_take_succ hget] at hnext
  have hle := c.property
  have hpos : 0 < c.val.length :=
    List.length_pos_iff.mpr (hne c (List.mem_of_getElem? hget))
  omega

/-- Before the last chunk of a full delivery, the bytes shown are 16 a line. -/
theorem FullButLast.length_take {chunks : List Chunk} (h : FullButLast chunks) :
    ∀ k, k < chunks.length → (stream (chunks.take k)).length = 16 * k := by
  intro k
  induction k with
  | zero => exact fun _ => rfl
  | succ k ih =>
      intro hk
      have hget : chunks[k]? = some (chunks.get ⟨k, by omega⟩) := by simp
      have hfull : (chunks.get ⟨k, by omega⟩).val.length = 16 := by
        refine h _ (List.mem_iff_getElem?.mpr ⟨k, ?_⟩)
        rw [List.dropLast_eq_take, List.getElem?_take, if_pos (by omega)]
        exact hget
      rw [length_stream_take_succ hget, ih (by omega), hfull]
      omega

/-- The first chunk of a full delivery is the first 16 bytes of the stream. -/
theorem FullButLast.head_eq {c : Chunk} {chunks : List Chunk} (h : FullButLast (c :: chunks)) :
    c.val = (stream (c :: chunks)).take 16 := by
  cases chunks with
  | nil =>
      rw [stream, List.map_singleton, List.flatten_singleton, List.take_of_length_le c.property]
  | cons d chunks =>
      have hc : c.val.length = 16 := h c (by simp)
      exact (List.take_left' hc).symm

theorem FullButLast.tail {c : Chunk} {chunks : List Chunk} (h : FullButLast (c :: chunks)) :
    FullButLast chunks := by
  cases chunks with
  | nil => exact fun d hd => absurd hd List.not_mem_nil
  | cons d chunks => exact fun e he => h e (by
      rw [List.dropLast_cons_cons]
      exact List.mem_cons_of_mem _ he)

/-- A stream has one full delivery. -/
theorem fullButLast_unique : ∀ {chunks chunks' : List Chunk},
    (∀ c ∈ chunks, c.val ≠ []) → (∀ c ∈ chunks', c.val ≠ []) →
    FullButLast chunks → FullButLast chunks' → stream chunks = stream chunks' →
    chunks = chunks' := by
  intro chunks
  induction chunks with
  | nil =>
      intro chunks' _ hne' _ _ hstream
      cases chunks' with
      | nil => rfl
      | cons c' chunks' =>
          have hnil : c'.val = [] := (List.append_eq_nil_iff.mp hstream.symm).1
          exact absurd hnil (hne' c' List.mem_cons_self)
  | cons c chunks ih =>
      intro chunks' hne hne' hfull hfull' hstream
      cases chunks' with
      | nil =>
          have hnil : c.val = [] := (List.append_eq_nil_iff.mp hstream).1
          exact absurd hnil (hne c List.mem_cons_self)
      | cons c' chunks' =>
          have hhead : c = c' := Subtype.ext (by rw [hfull.head_eq, hfull'.head_eq, hstream])
          subst hhead
          have htail : stream chunks = stream chunks' := List.append_cancel_left hstream
          rw [ih (fun d hd => hne d (List.mem_cons_of_mem _ hd))
            (fun d hd => hne' d (List.mem_cons_of_mem _ hd)) hfull.tail hfull'.tail htail]

/-- Two deliveries of one stream are dumped alike, with truthful offsets,
exactly when both are full up to their last results. -/
theorem dumps_alike_iff_fullButLast (locals locals' : Frame) (chunks chunks' : List Chunk)
    (hne : ∀ c ∈ chunks, c.val ≠ []) (hne' : ∀ c ∈ chunks', c.val ≠ [])
    (hstream : stream chunks = stream chunks') (rest rest' : List ReadResult) :
    (∃ out, main locals (delivered chunks rest) = .ok (out, rest) ∧
      main locals' (delivered chunks' rest') = .ok (out, rest') ∧ OffsetsTruthful out) ↔
    FullButLast chunks ∧ FullButLast chunks' := by
  have hmain := main_eq locals hne rest
  have hmain' := main_eq locals' hne' rest'
  constructor
  · rintro ⟨out, hout, hout', htrue⟩
    obtain ⟨rfl, -⟩ := Prod.mk.inj (Except.ok.inj (hmain.symm.trans hout))
    obtain ⟨heq, -⟩ := Prod.mk.inj (Except.ok.inj (hmain'.symm.trans hout'))
    refine ⟨fullButLast_of_offsets ((offsetsTruthful_iff chunks).mp htrue) hne, ?_⟩
    rw [← heq] at htrue
    exact fullButLast_of_offsets ((offsetsTruthful_iff chunks').mp htrue) hne'
  · rintro ⟨hfull, hfull'⟩
    obtain rfl := fullButLast_unique hne hne' hfull hfull' hstream
    refine ⟨_, hmain, hmain', (offsetsTruthful_iff chunks).mpr fun k hk => ?_⟩
    rw [hfull.length_take k hk]

theorem dumps_alike_iff_fullButLast_two : ¬ ∃ out,
    main garbage (delivered [⟨[104, 105], by decide⟩] []) = .ok (out, []) ∧
    main garbage (delivered [⟨[104], by decide⟩, ⟨[105], by decide⟩] []) = .ok (out, []) ∧
    OffsetsTruthful out := by
  have hiff := dumps_alike_iff_fullButLast garbage garbage [⟨[104, 105], by decide⟩]
    [⟨[104], by decide⟩, ⟨[105], by decide⟩] (by simp) (by simp) rfl [] []
  intro h
  exact absurd ((hiff.mp h).2 _ List.mem_cons_self) (by decide)

/-- Two bytes in one result, or one by one: one line or two, and the second of
the two claims offset 16 after one byte. -/
theorem short_result_shifts_offsets :
    stream [⟨[104, 105], by decide⟩] = stream [⟨[104], by decide⟩, ⟨[105], by decide⟩] ∧
    ∃ out out',
    main garbage (delivered [⟨[104, 105], by decide⟩] []) = .ok (out, []) ∧
    main garbage (delivered [⟨[104], by decide⟩, ⟨[105], by decide⟩] []) = .ok (out', []) ∧
    out ≠ out' ∧ ¬ OffsetsTruthful out' := by
  refine ⟨rfl, _, _, main_eq garbage (by simp) [], main_eq garbage (by simp) [], by decide, ?_⟩
  intro h
  exact absurd ((offsetsTruthful_iff _).mp h 1 (by decide)) (by decide)

end Csf.Hexdump
