import Mathlib.Data.List.Induction
import Xv6.Lib.Ring
import Xv6.Console.State

/-!
# The console is a line editor

The buffer shows the state of the reference editor: the bytes between `r` and `w` are committed and
not yet taken, those between `w` and `e` are the line being edited.
-/

namespace Xv6.Console

/-- The buffer holds what the editor says, and the indexes are its lengths. -/
structure Input.Shows (s : Input) (ed : Editor) : Prop where
  ring : Ring INPUT_BUF s.buf (ed.committed ++ ed.pending) ed.taken
  taken : ed.taken ≤ ed.committed.length
  r : s.r = ed.taken % 2 ^ 32
  w : s.w = ed.committed.length % 2 ^ 32
  e : s.e = (ed.committed ++ ed.pending).length % 2 ^ 32
  plain : ascii '\n' ∉ ed.pending

theorem inc_mod (k : Nat) : inc (k % 2 ^ 32) = (k + 1) % 2 ^ 32 := Nat.mod_add_mod ..

theorem dec_mod (k : Nat) : dec ((k + 1) % 2 ^ 32) = k % 2 ^ 32 := by
  rw [dec, Nat.mod_add_mod]
  omega

namespace Input.Shows

variable {s : Input} {ed : Editor}

section

variable (h : s.Shows ed)
include h

theorem held_eq : sub s.e s.r = ed.held := by
  rw [sub, h.e, h.r, h.ring.length_sub (by decide), List.length_append, Editor.held]

theorem held_le : ed.held ≤ INPUT_BUF := by
  have hroom := h.ring.room
  rw [List.length_append] at hroom
  rw [Editor.held]
  omega

theorem committed : Ring INPUT_BUF s.buf ed.committed ed.taken := by
  refine ⟨h.taken, ?_, ?_⟩
  · have hroom := h.ring.room
    rw [List.length_append] at hroom
    omega
  · intro k hk hlt
    have hcell := h.ring.cell k hk (by rw [List.length_append]; omega)
    rwa [List.getElem_append_left hlt] at hcell

theorem unread_length : sub s.w s.r = ed.committed.length - ed.taken := by
  rw [sub, h.w, h.r, h.committed.length_sub (by decide)]

theorem unread : s.unread = ed.committed.drop ed.taken := by
  rw [Input.unread, h.unread_length]
  refine List.ext_getElem (by simp) fun i hi hi' => ?_
  have hlt : ed.taken + i < ed.committed.length := by
    rw [List.length_drop] at hi'
    omega
  rw [List.getElem_map, List.getElem_range, List.getElem_drop, h.r, Nat.mod_add_mod,
    Ring.cell_mod (by decide)]
  exact h.committed.cell _ (by omega) hlt

theorem editing : Ring INPUT_BUF s.buf (ed.committed ++ ed.pending) ed.committed.length :=
  h.ring.later h.taken (by rw [List.length_append]; exact Nat.le_add_right ..)

/-- `input.e == input.w` -/
theorem edit_iff : s.e = s.w ↔ ed.pending = [] := by
  rw [eq_comm, h.e, h.w, h.editing.empty_iff (by decide), ← List.length_eq_zero_iff,
    List.length_append]
  omega

theorem pending_length : sub s.e s.w = ed.pending.length := by
  rw [sub, h.e, h.w, h.editing.length_sub (by decide), List.length_append]
  omega

end

/-- `input.e--` -/
theorem erase {committed line : List UInt8} {c : UInt8} {taken : Nat}
    (h : s.Shows ⟨committed, line ++ [c], taken⟩) :
    ({ s with e := dec s.e } : Input).Shows ⟨committed, line, taken⟩ := by
  have hring : Ring INPUT_BUF s.buf (committed ++ line ++ [c]) taken := by
    rw [List.append_assoc]
    exact h.ring
  have htaken : taken ≤ committed.length := h.taken
  refine ⟨hring.unpush ?_, h.taken, h.r, h.w, ?_, fun hmem => h.plain (List.mem_append_left _ hmem)⟩
  · rw [List.length_append]
    omega
  · have he : s.e = (committed ++ (line ++ [c])).length % 2 ^ 32 := h.e
    have hlen : (committed ++ (line ++ [c])).length = (committed ++ line).length + 1 := by
      simp only [List.length_append, List.length_singleton]
      omega
    rw [hlen] at he
    exact (congrArg dec he).trans (dec_mod _)

theorem last {committed line : List UInt8} {c : UInt8} {taken : Nat}
    (h : s.Shows ⟨committed, line ++ [c], taken⟩) : s.buf (dec s.e % INPUT_BUF) = c := by
  have hring : Ring INPUT_BUF s.buf (committed ++ line ++ [c]) taken := by
    rw [List.append_assoc]
    exact h.ring
  have htaken : taken ≤ committed.length := h.taken
  have he : dec s.e = (committed ++ line).length % 2 ^ 32 := h.erase.e
  have hcell := hring.cell (committed ++ line).length (by rw [List.length_append]; omega) (by simp)
  rw [he, Ring.cell_mod (by decide), hcell]
  simp

/-- `^U` -/
theorem killLine (h : s.Shows ed) {k : Nat} (hk : ed.pending.length ≤ k) :
    (Input.killLine k s).Shows { ed with pending := [] } := by
  obtain ⟨committed, pending, taken⟩ := ed
  induction pending using List.reverseRecOn generalizing s k with
  | nil =>
    have he := h.edit_iff.mpr rfl
    cases k with
    | zero => exact h
    | succ k =>
      rw [Input.killLine, if_neg fun hne => hne.1 he]
      exact h
  | append_singleton line c ih =>
    cases k with
    | zero => simp at hk
    | succ k =>
      have hne : s.e ≠ s.w := fun heq => by simpa using h.edit_iff.mp heq
      have hc : s.buf (dec s.e % INPUT_BUF) ≠ ascii '\n' := by
        rw [h.last]
        rintro rfl
        exact h.plain (by simp)
      rw [Input.killLine, if_pos ⟨hne, hc⟩]
      exact ih h.erase (by simpa using hk)

theorem put (h : s.Shows ed) (hroom : ed.held < INPUT_BUF) (c : UInt8) :
    (s.put c).Shows (ed.append c) := by
  have htaken := h.taken
  have hpush := h.ring.push (by rw [List.length_append]; rw [Editor.held] at hroom; omega) c
  have hcell : (ed.committed ++ ed.pending).length % INPUT_BUF = s.e % INPUT_BUF := by
    rw [h.e, Ring.cell_mod (by decide)]
  rw [hcell, List.append_assoc] at hpush
  have he : inc s.e = (ed.committed ++ (ed.pending ++ [c])).length % 2 ^ 32 := by
    rw [h.e, inc_mod, ← List.append_assoc, List.length_append, List.length_append,
      List.length_append, List.length_singleton]
  have hfull : inc s.e = (s.r + INPUT_BUF) % 2 ^ 32 ↔
      ({ ed with pending := ed.pending ++ [c] } : Editor).held = INPUT_BUF := by
    rw [he, h.r, hpush.full_iff (by decide), List.length_append, Editor.held]
    dsimp only
    omega
  have hplain : ¬ (c = ascii '\n' ∨ c = ctrl 'D' ∨ inc s.e = (s.r + INPUT_BUF) % 2 ^ 32) →
      ascii '\n' ∉ ed.pending ++ [c] := by
    intro hc hmem
    rcases List.mem_append.mp hmem with hmem | hmem
    · exact h.plain hmem
    · exact hc (.inl (List.mem_singleton.mp hmem).symm)
  by_cases hc : c = ascii '\n' ∨ c = ctrl 'D' ∨ inc s.e = (s.r + INPUT_BUF) % 2 ^ 32
  · have hput : s.put c =
        ⟨Function.update s.buf (s.e % INPUT_BUF) c, s.r, inc s.e, inc s.e⟩ := if_pos hc
    rw [hput, Editor.append, if_pos (by rwa [← hfull])]
    refine ⟨?_, ?_, h.r, he, ?_, List.not_mem_nil⟩
    · rw [Editor.commit, List.append_nil]
      exact hpush
    · exact htaken.trans (List.sublist_append_left ..).length_le
    · rw [Editor.commit, List.append_nil]
      exact he
  · have hput : s.put c =
        { s with buf := Function.update s.buf (s.e % INPUT_BUF) c, e := inc s.e } := if_neg hc
    rw [hput, Editor.append, if_neg (by rwa [← hfull])]
    exact ⟨hpush, htaken, h.r, h.w, he, hplain hc⟩

theorem key (h : s.Shows ed) (c : UInt8) : (s.key c).Shows (ed.key c) := by
  have hsame : c = 0 ∨ c = ctrl 'P' → s.key c = s := by
    rintro (rfl | rfl)
    · rw [Input.key, if_neg (by decide), if_neg (by decide), if_neg (by decide), if_neg (by simp)]
    · rw [Input.key, if_pos rfl]
  by_cases hskip : c = 0 ∨ c = ctrl 'P'
  · rw [hsame hskip, Editor.key, if_pos hskip]
    exact h
  obtain ⟨hzero, hP⟩ := not_or.mp hskip
  rw [Input.key, Editor.key, if_neg hskip, if_neg hP]
  by_cases hU : c = ctrl 'U'
  · rw [if_pos hU, if_pos hU]
    exact h.killLine h.pending_length.ge
  rw [if_neg hU, if_neg hU]
  by_cases hH : c = ctrl 'H' ∨ c = 0x7f
  · rw [if_pos hH, if_pos hH]
    obtain ⟨committed, pending, taken⟩ := ed
    rcases List.eq_nil_or_concat pending with rfl | ⟨line, b, rfl⟩
    · rw [if_neg (not_not_intro (h.edit_iff.mpr rfl))]
      exact h
    · rw [List.concat_eq_append] at h ⊢
      have hne : s.e ≠ s.w := fun heq => by simpa using h.edit_iff.mp heq
      rw [if_pos hne]
      simpa using h.erase
  rw [if_neg hH, if_neg hH, h.held_eq]
  have hle := h.held_le
  by_cases hfull : ed.held = INPUT_BUF
  · rw [if_pos hfull, if_neg (by simp [hfull])]
    exact h
  · rw [if_neg hfull, if_pos ⟨hzero, by omega⟩]
    exact h.put (by omega) _

end Input.Shows

end Xv6.Console
