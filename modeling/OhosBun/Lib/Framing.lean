/-
# `OhosBun.Lib.Framing` — a stream of frames in chunks

A stream is some frames, one after the other, and a start of another one.  Wherever it is cut, the
first part is some of the frames and a start of the next (`exists_cut`).

A receiver is given the stream in chunks.  If with every chunk it is done with the frames that are
complete and keeps the start of the next one, then in the end it has handled the frames of the
stream, however it was cut (`foldlM_chunks`).  What a receiver may be given in total is bounded.
-/
import Mathlib.Data.List.Basic

namespace OhosBun.Lib.Framing

section Frames
variable {α F : Type*} (encode : F → List α)

/-- The start of a frame, not all of it. -/
def Partial (start : List α) : Prop := ∃ extra frame, extra ≠ [] ∧ start ++ extra = encode frame

variable {encode}

theorem exists_cut {frames : List F} {tail front back : List α} (htail : Partial encode tail)
    (h : front ++ back = frames.flatMap encode ++ tail) :
    ∃ before after start, frames = before ++ after ∧ front = before.flatMap encode ++ start ∧
      Partial encode start ∧ start ++ back = after.flatMap encode ++ tail := by
  induction frames generalizing front with
  | nil =>
    obtain ⟨extra, frame, hextra, hframe⟩ := htail
    refine ⟨[], [], front, rfl, rfl, ⟨back ++ extra, frame, ?_, ?_⟩, h⟩
    · exact List.append_ne_nil_of_right_ne_nil back hextra
    · rw [← List.append_assoc, h]
      exact hframe
  | cons frame frames ih =>
    rw [List.flatMap_cons, List.append_assoc] at h
    rcases List.append_eq_append_iff.mp h with ⟨extra, hframe, hback⟩ | ⟨front', hfront, hrest⟩
    · by_cases hextra : extra = []
      · subst hextra
        rw [List.append_nil] at hframe
        obtain ⟨before, after, start, heq, hstart, hpartial, hafter⟩ :=
          ih ((List.nil_append _).trans hback)
        refine ⟨frame :: before, after, start, by rw [heq]; rfl, ?_, hpartial, hafter⟩
        rw [List.flatMap_cons, List.append_assoc, ← hstart, List.append_nil, hframe]
      · refine ⟨[], frame :: frames, front, rfl, rfl, ⟨extra, frame, hextra, hframe.symm⟩, ?_⟩
        rw [List.flatMap_cons, List.append_assoc, h]
    · obtain ⟨before, after, start, heq, hstart, hpartial, hafter⟩ := ih hrest.symm
      refine ⟨frame :: before, after, start, by rw [heq]; rfl, ?_, hpartial, hafter⟩
      rw [List.flatMap_cons, List.append_assoc, ← hstart, hfront]

/-! ## Receivers -/

section Receiver
variable {σ : Type*} {step : σ → List α → Option σ}
  {Stands : σ → (received : Nat) → (done : List F) → (kept : List α) → Prop} {bound : Nat}

/-- A receiver that handles the frames of a chunk handles those of one chunk after the other. -/
theorem foldlM_cons_chunks
    (hstep : ∀ s received done kept chunk frames tail, Stands s received done kept → chunk ≠ [] →
      Partial encode tail → kept ++ chunk = frames.flatMap encode ++ tail →
      received + chunk.length < bound → ∃ s', step s chunk = some s' ∧
        Stands s' (received + chunk.length) (done ++ frames) tail) :
    ∀ (chunks : List (List α)) (chunk : List α) {s : σ} {received : Nat} {done frames : List F}
      {kept tail : List α}, Stands s received done kept → (∀ c ∈ chunk :: chunks, c ≠ []) →
      Partial encode tail → kept ++ (chunk :: chunks).flatten = frames.flatMap encode ++ tail →
      received + (chunk :: chunks).flatten.length < bound →
      ∃ s', (chunk :: chunks).foldlM step s = some s' ∧
        Stands s' (received + (chunk :: chunks).flatten.length) (done ++ frames) tail := by
  intro chunks
  induction chunks with
  | nil =>
    intro chunk s received done frames kept tail hs hne htail heq hlt
    rw [List.flatten_cons, List.flatten_nil, List.append_nil] at heq hlt ⊢
    obtain ⟨s', hs', hstands⟩ :=
      hstep s received done kept chunk frames tail hs (hne chunk List.mem_cons_self) htail heq hlt
    exact ⟨s', by rw [List.foldlM_cons, hs']; rfl, hstands⟩
  | cons next chunks ih =>
    intro chunk s received done frames kept tail hs hne htail heq hlt
    rw [List.flatten_cons, ← List.append_assoc] at heq
    rw [List.flatten_cons, List.length_append] at hlt
    obtain ⟨before, after, start, rfl, hfront, hstart, hback⟩ := exists_cut htail heq
    obtain ⟨s₁, hs₁, hstands⟩ := hstep s received done kept chunk before start hs
      (hne chunk List.mem_cons_self) hstart hfront (by omega)
    obtain ⟨s₂, hs₂, hstands₂⟩ := ih next hstands
      (fun c hc => hne c (List.mem_cons_of_mem _ hc)) htail hback (by omega)
    refine ⟨s₂, ?_, ?_⟩
    · rw [List.foldlM_cons, hs₁]
      exact hs₂
    · rw [List.flatten_cons, List.length_append, ← Nat.add_assoc, ← List.append_assoc]
      exact hstands₂

/-- The frames of a stream are handled, and the start of another one is kept, however it is cut. -/
theorem foldlM_chunks (hencode : ∀ frame, encode frame ≠ [])
    (hstep : ∀ s received done kept chunk frames tail, Stands s received done kept → chunk ≠ [] →
      Partial encode tail → kept ++ chunk = frames.flatMap encode ++ tail →
      received + chunk.length < bound → ∃ s', step s chunk = some s' ∧
        Stands s' (received + chunk.length) (done ++ frames) tail)
    {chunks : List (List α)} {s : σ} {frames : List F} {tail : List α} (hs : Stands s 0 [] [])
    (hne : ∀ chunk ∈ chunks, chunk ≠ []) (htail : Partial encode tail)
    (heq : chunks.flatten = frames.flatMap encode ++ tail) (hlt : chunks.flatten.length < bound) :
    ∃ s', chunks.foldlM step s = some s' ∧ Stands s' chunks.flatten.length frames tail := by
  cases chunks with
  | nil =>
    obtain ⟨hframes, rfl⟩ := List.append_eq_nil_iff.mp heq.symm
    obtain rfl : frames = [] := List.eq_nil_iff_forall_not_mem.mpr fun frame hframe =>
      hencode frame (List.flatMap_eq_nil_iff.mp hframes frame hframe)
    exact ⟨s, rfl, hs⟩
  | cons chunk chunks =>
    have h := foldlM_cons_chunks hstep chunks chunk hs hne htail heq (by rwa [Nat.zero_add])
    rwa [Nat.zero_add, List.nil_append] at h

end Receiver

end Frames

end OhosBun.Lib.Framing
