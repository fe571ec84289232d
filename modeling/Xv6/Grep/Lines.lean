import Xv6.Grep.Match
import Xv6.Lib.Bits
import Mathlib.Data.List.DropRight
import Mathlib.Data.List.Flatten

/-!
# The lines of `grep`

`grep` reads into a buffer, takes the complete lines from its start and moves the rest there.
-/

namespace Xv6

namespace Grep

/-- `sizeof(buf)` -/
def bufSize : Nat := 1024

abbrev Buffer := Bytes bufSize

def newline : UInt8 := 10

/-- `strchr(p, c)`, with at most `n` bytes looked at -/
def strchr (buf : Buffer) (c : UInt8) : Nat → Nat → Option Nat
  | 0, _ => none
  | n + 1, p =>
    if buf.get p = 0 then none
    else if buf.get p = c then some p
    else strchr buf c n (p + 1)

/-- The string at `p` -/
def cstr (buf : Buffer) (p : Nat) : List UInt8 := (buf.slice p (bufSize - p)).takeWhile (· ≠ 0)

/-- The buffer, `p` and what has been written to descriptor 1 -/
structure Scan where
  buf : Buffer
  p : Nat
  out : List (List UInt8)

/-- `while((q = strchr(p, '\n')) != 0)`, for `n` lines at most -/
def scanLines (pattern : List UInt8) : Nat → Scan → Scan
  | 0, s => s
  | n + 1, s =>
    match strchr s.buf newline bufSize s.p with
    | none => s
    | some q =>
      let buf := s.buf.put q 0
      if matchText pattern (cstr buf s.p) then
        let buf := buf.put q newline
        scanLines pattern n ⟨buf, q + 1, s.out ++ [buf.slice s.p (q + 1 - s.p)]⟩
      else scanLines pattern n ⟨buf, q + 1, s.out⟩

/-- `read(fd, ·, space)` gives what has arrived, and what does not fit later. -/
def read (space : Nat) : List (List UInt8) → List UInt8 × List (List UInt8)
  | [] => ([], [])
  | c :: cs => (c.take space, if c.length ≤ space then cs else c.drop space :: cs)

/-- The loop of `grep`, for `n` reads at most -/
def grepLoop (pattern : List UInt8) : Nat → Buffer → Nat → List (List UInt8) → List (List UInt8) →
    List (List UInt8)
  | 0, _, _, _, out => out
  | n + 1, buf, m, chunks, out =>
    let (bytes, chunks) := read (bufSize - m - 1) chunks
    if bytes = [] then out
    else
      let buf := (buf.fill m bytes).put (m + bytes.length) 0
      let s := scanLines pattern bufSize ⟨buf, 0, out⟩
      let m := if s.p = 0 then 0 else m + bytes.length
      if m > 0 then
        grepLoop pattern n (s.buf.fill 0 (s.buf.slice s.p (m - s.p))) (m - s.p) chunks s.out
      else grepLoop pattern n s.buf m chunks s.out

/-- The writes of `grep`, when `read` returns the chunks one after the other -/
def grep (pattern : List UInt8) (buf : Buffer) (chunks : List (List UInt8)) : List (List UInt8) :=
  grepLoop pattern (chunks.flatten.length + 1) buf 0 chunks []

/-- A line with its newline, which fits in the buffer. -/
structure IsLine (l : List UInt8) : Prop where
  last : ∃ w, l = w ++ [newline] ∧ newline ∉ w
  noNul : 0 ∉ l
  fits : l.length ≤ bufSize - 1

/-- What comes behind the last newline -/
def lastLine (text : List UInt8) : List UInt8 := text.rtakeWhile (· ≠ newline)

/-- The chunks are not empty, and each fits in the buffer behind the line that is not finished. -/
def Offered : List UInt8 → List (List UInt8) → Prop
  | _, [] => True
  | left, c :: cs =>
    c ≠ [] ∧ left.length + c.length ≤ bufSize - 1 ∧ Offered (lastLine (left ++ c)) cs

/-- The expression occurs in the line, without its newline. -/
def Matches (pattern : List UInt8) (l : List UInt8) : Bool := matchText pattern l.dropLast

variable {w : List UInt8} {buf : Buffer}

theorem strchr_found {p n : Nat} (hn : w.length < n) (hw : newline ∉ w) (hnul : 0 ∉ w)
    (h : buf.slice p (w.length + 1) = w ++ [newline]) :
    strchr buf newline n p = some (p + w.length) := by
  induction w generalizing p n with
  | nil =>
    obtain ⟨n, rfl⟩ := Nat.exists_eq_succ_of_ne_zero (Nat.ne_of_gt hn)
    rw [Bytes.slice_succ] at h
    have hget : buf.get p = newline := (List.cons.inj h).1
    rw [strchr, hget, if_neg (by decide), if_pos rfl]
    rfl
  | cons c w ih =>
    obtain ⟨n, rfl⟩ := Nat.exists_eq_succ_of_ne_zero (Nat.ne_of_gt (Nat.zero_lt_of_lt hn))
    rw [List.length_cons, Bytes.slice_succ] at h
    obtain ⟨hget, htail⟩ := List.cons.inj h
    rw [List.mem_cons, not_or] at hw hnul
    rw [strchr, hget, if_neg (Ne.symm hnul.1), if_neg (Ne.symm hw.1),
      ih (by simpa using hn) hw.2 hnul.2 htail]
    simp
    omega

theorem strchr_none {p n : Nat} (hw : newline ∉ w)
    (h : buf.slice p (w.length + 1) = w ++ [0]) : strchr buf newline n p = none := by
  induction w generalizing p n with
  | nil =>
    cases n with
    | zero => rfl
    | succ n =>
      rw [Bytes.slice_succ] at h
      rw [strchr, if_pos (List.cons.inj h).1]
  | cons c w ih =>
    cases n with
    | zero => rfl
    | succ n =>
      rw [List.length_cons, Bytes.slice_succ] at h
      obtain ⟨hget, htail⟩ := List.cons.inj h
      rw [List.mem_cons, not_or] at hw
      rw [strchr, hget, if_neg (Ne.symm hw.1), ih hw.2 htail]
      split <;> rfl

theorem cstr_eq {p : Nat} (hend : p + w.length < bufSize) (hnul : 0 ∉ w)
    (h : buf.slice p (w.length + 1) = w ++ [0]) : cstr buf p = w := by
  have hlen : bufSize - p = w.length + 1 + (bufSize - p - w.length - 1) := by omega
  have hall : ∀ c ∈ w, decide (c ≠ 0) = true := fun c hc =>
    decide_eq_true fun hzero => hnul (hzero ▸ hc)
  rw [cstr, hlen, Bytes.slice_add, h, List.append_assoc, List.takeWhile_append_of_pos hall]
  simp

theorem slice_put_ne (buf : Buffer) {p n q : Nat} (x : UInt8) (hq : q < bufSize) (h : q < p ∨ p + n ≤ q) :
    (buf.put q x).slice p n = buf.slice p n := by
  apply Bytes.slice_congr
  intro k hk
  rw [Bytes.get_put buf hq, if_neg (by omega)]

theorem slice_put_last (buf : Buffer) {p n : Nat} (x : UInt8) (hq : p + n < bufSize) :
    (buf.put (p + n) x).slice p (n + 1) = buf.slice p n ++ [x] := by
  rw [Bytes.slice_add, slice_put_ne buf x hq (.inr (Nat.le_refl _)), Bytes.slice_succ,
    Bytes.get_put buf hq, if_pos rfl]
  rfl

theorem slice_init {p : Nat} {x : UInt8}
    (h : buf.slice p (w.length + 1) = w ++ [x]) : buf.slice p w.length = w := by
  rw [Bytes.slice_add] at h
  exact (List.append_inj h (Bytes.length_slice ..)).1

theorem line_of_mem {w text rest more : List UInt8} (hw : newline ∉ w) (hmem : newline ∈ text)
    (h : w ++ [newline] ++ rest = text ++ more) :
    ∃ text', text = w ++ [newline] ++ text' ∧ rest = text' ++ more := by
  rcases List.append_eq_append_iff.mp h with ⟨x, hx, hrest⟩ | ⟨x, hx, hmore⟩
  · exact ⟨x, hx, hrest⟩
  · -- the text is a part of the line, and has its last byte
    rcases List.eq_nil_or_concat x with rfl | ⟨y, c, rfl⟩
    · exact ⟨[], by simpa using hx.symm, by simpa using hmore.symm⟩
    · rw [List.concat_eq_append, ← List.append_assoc] at hx
      have hinit := (List.append_inj' hx rfl).1
      rw [hinit, List.mem_append, not_or] at hw
      exact absurd hmem hw.1

theorem scanLines_stop {pattern text : List UInt8} {s : Scan} {n : Nat} (hnot : newline ∉ text)
    (htext : s.buf.slice s.p (text.length + 1) = text ++ [0]) : scanLines pattern n s = s := by
  cases n with
  | zero => rfl
  | succ n => rw [scanLines, strchr_none hnot htext]

theorem scanLines_line (pattern : List UInt8) {s : Scan} (n : Nat) (hw : newline ∉ w) (hnul : 0 ∉ w)
    (htext : s.buf.slice s.p (w.length + 1) = w ++ [newline]) (hend : s.p + w.length < bufSize) :
    ∃ buf : Buffer, (∀ k, buf.slice (s.p + (w.length + 1)) k = s.buf.slice (s.p + (w.length + 1)) k) ∧
      scanLines pattern (n + 1) s = scanLines pattern n
        ⟨buf, s.p + (w.length + 1), s.out ++ [w ++ [newline]].filter (Matches pattern)⟩ := by
  have hlen : w.length < bufSize := Nat.lt_of_le_of_lt (Nat.le_add_left ..) hend
  have hinit := slice_init htext
  have hbehind (buf : Buffer) (x : UInt8) (k : Nat) :
      (buf.put (s.p + w.length) x).slice (s.p + (w.length + 1)) k =
        buf.slice (s.p + (w.length + 1)) k :=
    slice_put_ne buf x hend (.inl (by omega))
  have hstr : cstr (s.buf.put (s.p + w.length) 0) s.p = w := by
    apply cstr_eq hend hnul
    rw [slice_put_last s.buf 0 hend, hinit]
  have hmatch : Matches pattern (w ++ [newline]) = matchText pattern w := by
    rw [Matches, List.dropLast_concat]
  rw [scanLines, strchr_found hlen hw hnul htext]
  dsimp only
  rw [hstr]
  cases hm : matchText pattern w with
  | true =>
    refine ⟨(s.buf.put (s.p + w.length) 0).put (s.p + w.length) newline, fun k => ?_, ?_⟩
    · rw [hbehind, hbehind]
    · rw [if_pos rfl, List.filter_cons_of_pos (hmatch.trans hm), List.filter_nil]
      have hsub : s.p + w.length + 1 - s.p = w.length + 1 := by omega
      rw [hsub, slice_put_last _ newline hend, slice_put_ne s.buf 0 hend (.inr (Nat.le_refl _)), hinit]
      rfl
  | false =>
    refine ⟨s.buf.put (s.p + w.length) 0, hbehind s.buf 0, ?_⟩
    rw [if_neg Bool.false_ne_true, List.filter_cons_of_neg (by rw [hmatch, hm]; decide), List.filter_nil,
      List.append_nil]
    rfl

variable {lines : List (List UInt8)}

/-- The complete lines of the text are written if they match, and `p` comes to what is left of it. -/
theorem scanLines_spec (pattern : List UInt8) {text more : List UInt8} {s : Scan} {n : Nat}
    (hlines : ∀ l ∈ lines, IsLine l) (hstream : lines.flatten = text ++ more)
    (htext : s.buf.slice s.p (text.length + 1) = text ++ [0]) (hend : s.p + text.length < bufSize)
    (hn : text.length ≤ n) :
    ∃ done lines' rest, lines = done ++ lines' ∧ text = done.flatten ++ rest ∧ newline ∉ rest ∧
      lines'.flatten = rest ++ more ∧
      (scanLines pattern n s).p = s.p + done.flatten.length ∧
      (scanLines pattern n s).out = s.out ++ done.filter (Matches pattern) ∧
      (scanLines pattern n s).buf.slice (s.p + done.flatten.length) rest.length = rest := by
  induction lines generalizing text s n with
  | nil =>
    obtain ⟨rfl, rfl⟩ := List.append_eq_nil_iff.mp hstream.symm
    rw [scanLines_stop List.not_mem_nil htext]
    exact ⟨[], [], [], rfl, rfl, List.not_mem_nil, rfl, rfl, (List.append_nil _).symm, rfl⟩
  | cons l lines ih =>
    obtain ⟨⟨w, rfl, hw⟩, hnul, -⟩ := hlines l List.mem_cons_self
    by_cases hmem : newline ∈ text
    · obtain ⟨text', rfl, hrest⟩ := line_of_mem hw hmem hstream
      rw [List.mem_append, not_or] at hnul
      have hlen : (w ++ [newline] ++ text').length = w.length + 1 + text'.length := by
        simp only [List.length_append, List.length_singleton]
      rw [hlen] at hend hn
      rw [hlen, Nat.add_assoc, Bytes.slice_add, List.append_assoc] at htext
      obtain ⟨hline, htail⟩ := List.append_inj htext (by rw [Bytes.length_slice]; simp)
      obtain ⟨n, rfl⟩ := Nat.exists_eq_succ_of_ne_zero (show n ≠ 0 by omega)
      obtain ⟨buf, hbuf, hstep⟩ := scanLines_line pattern n hw hnul.1 hline (by omega)
      obtain ⟨done, lines', rest, rfl, rfl, hno, hmore, hp, hout, hslice⟩ :=
        ih (s := ⟨buf, s.p + (w.length + 1),
          s.out ++ [w ++ [newline]].filter (Matches pattern)⟩) (n := n)
          (fun l hl => hlines l (List.mem_cons_of_mem _ hl)) hrest ((hbuf _).trans htail)
          (by dsimp only; omega) (by omega)
      rw [hstep]
      have hadd : s.p + ((w ++ [newline]) :: done).flatten.length =
          s.p + (w.length + 1) + done.flatten.length := by
        simp only [List.flatten_cons, List.length_append, List.length_singleton]
        omega
      refine ⟨(w ++ [newline]) :: done, lines', rest, rfl, ?_, hno, hmore, hp.trans hadd.symm, ?_, ?_⟩
      · rw [List.flatten_cons]
        exact (List.append_assoc ..).symm
      · rw [hout, List.append_assoc, ← List.filter_append]
        rfl
      · rw [hadd]
        exact hslice
    · rw [scanLines_stop hmem htext]
      exact ⟨[], (w ++ [newline]) :: lines, text, rfl, rfl, hmem, hstream, rfl,
        (List.append_nil _).symm, slice_init htext⟩

variable {rest : List UInt8}

theorem ne_newline (h : newline ∉ rest) : ∀ c ∈ rest, decide (c ≠ newline) = true :=
  fun _ hc => decide_eq_true fun heq => h (heq ▸ hc)

theorem lastLine_of_not_mem (h : newline ∉ rest) : lastLine rest = rest :=
  List.rtakeWhile_eq_self_iff.mpr (ne_newline h)

theorem lastLine_append {before rest : List UInt8} (h : newline ∉ rest) :
    lastLine (before ++ [newline] ++ rest) = rest := by
  have hall := ne_newline (show newline ∉ rest.reverse by rwa [List.mem_reverse])
  rw [lastLine, List.rtakeWhile, List.reverse_append, List.takeWhile_append_of_pos hall,
    List.reverse_append]
  simp

theorem flatten_eq_nil_or_concat (h : ∀ l ∈ lines, IsLine l) :
    lines = [] ∨ ∃ before, lines.flatten = before ++ [newline] := by
  rcases List.eq_nil_or_concat lines with rfl | ⟨lines', l, rfl⟩
  · exact .inl rfl
  · obtain ⟨⟨w, rfl, -⟩, -, -⟩ := h l (by simp)
    exact .inr ⟨lines'.flatten ++ w, by simp⟩

theorem lastLine_lines (h : ∀ l ∈ lines, IsLine l)
    (hrest : newline ∉ rest) : lastLine (lines.flatten ++ rest) = rest := by
  rcases flatten_eq_nil_or_concat h with rfl | ⟨before, hbefore⟩
  · exact lastLine_of_not_mem hrest
  · rw [hbefore]
    exact lastLine_append hrest

theorem lastLine_suffix {text text' : List UInt8} (h : text' <:+ text) : lastLine text' <:+ lastLine text := by
  obtain ⟨before, rfl⟩ := h
  rw [lastLine, lastLine, List.rtakeWhile, List.rtakeWhile, List.reverse_append, List.takeWhile_append]
  split
  · rename_i hall
    rw [List.reverse_append, (List.takeWhile_prefix _).eq_of_length hall]
    exact List.suffix_append ..
  · exact List.suffix_rfl

theorem Offered.of_suffix {left left' : List UInt8} {chunks : List (List UInt8)} (h : Offered left chunks)
    (hleft : left' <:+ left) : Offered left' chunks := by
  induction chunks generalizing left left' with
  | nil => trivial
  | cons c cs ih =>
    obtain ⟨hne, hlen, hrest⟩ := h
    have hle := hleft.length_le
    obtain ⟨before, rfl⟩ := hleft
    exact ⟨hne, by omega, ih hrest (lastLine_suffix ⟨before, (List.append_assoc ..).symm⟩)⟩

theorem Offered.length_le {left : List UInt8} {chunks : List (List UInt8)} (h : Offered left chunks) :
    chunks.length ≤ chunks.flatten.length := by
  induction chunks generalizing left with
  | nil => exact Nat.le_refl _
  | cons c cs ih =>
    have hpos := List.length_pos_iff.mpr h.1
    have hrest := ih h.2.2
    rw [List.length_cons, List.flatten_cons, List.length_append]
    omega

/-- A line keeps a newline at its end when its beginning is lost. -/
theorem lines_of_lost (hlines : ∀ l ∈ lines, IsLine l) {more : List UInt8} (hrest : newline ∉ rest)
    (h : lines.flatten = rest ++ more) : ∃ lines' : List (List UInt8), (∀ l ∈ lines', IsLine l) ∧ lines'.flatten = more := by
  cases lines with
  | nil =>
    obtain ⟨rfl, rfl⟩ := List.append_eq_nil_iff.mp h.symm
    exact ⟨[], hlines, rfl⟩
  | cons l lines =>
    obtain ⟨⟨w, rfl, hw⟩, hnul, hfits⟩ := hlines l List.mem_cons_self
    obtain ⟨w', rfl⟩ : ∃ w', w = rest ++ w' := by
      rw [List.flatten_cons, List.append_assoc] at h
      rcases List.append_eq_append_iff.mp h with ⟨x, rfl, hx⟩ | ⟨x, rfl, -⟩
      · cases x with
        | nil => exact ⟨[], by simp⟩
        | cons c x =>
          have hc : newline = c := (List.cons.inj hx).1
          simp [hc] at hrest
      · exact ⟨x, rfl⟩
    rw [List.mem_append, not_or] at hw
    refine ⟨(w' ++ [newline]) :: lines, List.forall_mem_cons.mpr ⟨⟨⟨w', rfl, hw.2⟩, ?_, ?_⟩, fun l hl =>
      hlines l (List.mem_cons_of_mem _ hl)⟩, ?_⟩
    · intro hmem
      rw [List.append_assoc] at hnul
      exact hnul (List.mem_append_right _ hmem)
    · simp only [List.length_append] at hfits ⊢
      omega
    · simpa using h

section

variable {pattern c left : List UInt8} {cs : List (List UInt8)} {out : List (List UInt8)}
variable (hlines : ∀ l ∈ lines, IsLine l) (hbuf : buf.slice 0 left.length = left)
include hlines hbuf

/-- One round: complete lines are taken if there are any, and otherwise all that was read is forgotten. -/
theorem grepLoop_cons (pattern : List UInt8) (out : List (List UInt8)) (n : Nat) (hstream : lines.flatten = left ++ (c :: cs).flatten)
    (hfit : Offered left (c :: cs)) :
    ∃ done lines' rest, lines = done ++ lines' ∧ left ++ c = done.flatten ++ rest ∧ newline ∉ rest ∧
      lines'.flatten = rest ++ cs.flatten ∧ ∃ buf' : Buffer, buf'.slice 0 rest.length = rest ∧
      grepLoop pattern (n + 1) buf left.length (c :: cs) out =
        if done = [] then grepLoop pattern n buf' 0 cs out
        else grepLoop pattern n buf' rest.length cs (out ++ done.filter (Matches pattern)) := by
  obtain ⟨hne, hlen, -⟩ := hfit
  have hspace : c.length ≤ bufSize - left.length - 1 := by omega
  have hsize : left.length + c.length < bufSize := by
    simp only [bufSize] at hlen ⊢
    omega
  have hread : read (bufSize - left.length - 1) (c :: cs) = (c, cs) := by
    rw [read, List.take_of_length_le hspace, if_pos hspace]
  have htext : ((buf.fill left.length c).put (left.length + c.length) 0).slice 0
      ((left ++ c).length + 1) = left ++ c ++ [0] := by
    have hput := slice_put_last (buf.fill left.length c) (p := 0) (n := left.length + c.length) 0
      (by omega)
    rw [Nat.zero_add] at hput
    rw [List.length_append, hput, Bytes.slice_add, Nat.zero_add,
      Bytes.slice_fill_out buf (.inl (by omega)), hbuf, Bytes.slice_fill buf (by omega)]
  have hwhole : lines.flatten = left ++ c ++ cs.flatten := by
    rw [hstream, List.flatten_cons, List.append_assoc]
  obtain ⟨done, lines', rest, rfl, htaken, hno, hmore, hp, hout, hslice⟩ :=
    scanLines_spec pattern (n := bufSize)
      (s := ⟨(buf.fill left.length c).put (left.length + c.length) 0, 0, out⟩) hlines hwhole htext
      (by rw [List.length_append]; dsimp only; omega) (by rw [List.length_append]; omega)
  have hsum : left.length + c.length - done.flatten.length = rest.length := by
    rw [← List.length_append, htaken, List.length_append, Nat.add_sub_cancel_left]
  have hcpos := List.length_pos_iff.mpr hne
  rw [Nat.zero_add] at hslice hp
  refine ⟨done, lines', rest, rfl, htaken, hno, hmore, ?_⟩
  rw [grepLoop, hread]
  dsimp only
  rw [if_neg hne, hp]
  cases done with
  | nil => exact ⟨_, hslice, by simp [hout]⟩
  | cons l done =>
    obtain ⟨⟨w, rfl, -⟩, -, -⟩ := hlines l List.mem_cons_self
    have hpos : 0 < ((w ++ [newline]) :: done).flatten.length := by simp
    rw [if_neg (Nat.ne_of_gt hpos), if_pos (by omega), hsum, hslice, hout]
    exact ⟨_, Bytes.slice_fill _ (by omega), (if_neg (List.cons_ne_nil _ _)).symm⟩

theorem grepLoop_lines {chunks : List (List UInt8)} {n : Nat}
    (hstream : lines.flatten = left ++ chunks.flatten) (hleft : newline ∉ left)
    (hfit : Offered left chunks) (hnl : ∀ c ∈ chunks, newline ∈ c) (hn : chunks.length < n) :
    grepLoop pattern n buf left.length chunks out = out ++ lines.filter (Matches pattern) := by
  induction chunks generalizing lines left n buf out with
  | nil =>
    obtain ⟨n, rfl⟩ := Nat.exists_eq_succ_of_ne_zero (Nat.ne_of_gt hn)
    have hnone : lines = [] := by
      rcases flatten_eq_nil_or_concat hlines with hnil | ⟨before, hbefore⟩
      · exact hnil
      · rw [hbefore, List.flatten_nil, List.append_nil] at hstream
        rw [← hstream] at hleft
        simp at hleft
    rw [hnone, grepLoop, read]
    simp
  | cons c cs ih =>
    obtain ⟨n, rfl⟩ := Nat.exists_eq_succ_of_ne_zero (Nat.ne_of_gt (Nat.zero_lt_of_lt hn))
    obtain ⟨done, lines', rest, rfl, htaken, hno, hmore, buf', hbuf', hround⟩ :=
      grepLoop_cons hlines hbuf pattern out n hstream hfit
    have hdone : ∀ l ∈ done, IsLine l := fun l hl => hlines l (List.mem_append_left _ hl)
    have hoffered := hfit.2.2
    rw [htaken, lastLine_lines hdone hno] at hoffered
    -- there is a newline in the chunk, so a line is taken
    have htake : done ≠ [] := by
      rintro rfl
      have hmem : newline ∈ left ++ c := List.mem_append_right _ (hnl c List.mem_cons_self)
      exact hno (by simpa [htaken] using hmem)
    rw [hround, if_neg htake, ih (fun l hl => hlines l (List.mem_append_right _ hl)) hbuf' hmore hno
      hoffered (fun c hc => hnl c (List.mem_cons_of_mem _ hc)) (by simpa using hn), List.append_assoc,
      ← List.filter_append]

/-- No more is written than was read, and less if a chunk has no newline. -/
theorem grepLoop_length {chunks : List (List UInt8)} (pattern : List UInt8) (out : List (List UInt8)) (n : Nat)
    (hstream : lines.flatten = left ++ chunks.flatten) (hfit : Offered left chunks) :
    (grepLoop pattern n buf left.length chunks out).flatten.length ≤
        out.flatten.length + lines.flatten.length ∧
      (newline ∉ left → (∃ c ∈ chunks, newline ∉ c) →
        (grepLoop pattern n buf left.length chunks out).flatten.length <
          out.flatten.length + lines.flatten.length) := by
  induction chunks generalizing lines left n buf out with
  | nil =>
    cases n <;> simp [grepLoop, read]
  | cons c cs ih =>
    have hcpos := List.length_pos_iff.mpr hfit.1
    have hflat := congrArg List.length hstream
    rw [List.flatten_cons, List.length_append, List.length_append] at hflat
    cases n with
    | zero =>
      rw [grepLoop]
      omega
    | succ n =>
      obtain ⟨done, lines', rest, rfl, htaken, hno, hmore, buf', hbuf', hround⟩ :=
        grepLoop_cons hlines hbuf pattern out n hstream hfit
      have hlines' : ∀ l ∈ lines', IsLine l := fun l hl => hlines l (List.mem_append_right _ hl)
      rw [hround]
      by_cases htake : done = []
      · obtain ⟨lost, hlost, hlostFlat⟩ := lines_of_lost hlines' hno hmore
        have hempty : buf'.slice 0 ([] : List UInt8).length = [] := rfl
        have hrest := ih hlost hempty out n hlostFlat (hfit.2.2.of_suffix List.nil_suffix)
        rw [if_pos htake]
        rw [hlostFlat] at hrest
        simp only [List.length_nil] at hrest
        omega
      · have hdone : ∀ l ∈ done, IsLine l := fun l hl => hlines l (List.mem_append_left _ hl)
        have hoffered := hfit.2.2
        rw [htaken, lastLine_lines hdone hno] at hoffered
        obtain ⟨hle, hlt⟩ := ih hlines' hbuf' (out ++ done.filter (Matches pattern)) n hmore hoffered
        have hfilter : (done.filter (Matches pattern)).flatten.length ≤ done.flatten.length :=
          List.filter_sublist.flatten.length_le
        rw [if_neg htake]
        simp only [List.flatten_append, List.length_append] at hle hlt ⊢
        refine ⟨by omega, fun hleft hnl => ?_⟩
        have hlater : ∃ c ∈ cs, newline ∉ c := by
          obtain ⟨c', hc', hnot⟩ := hnl
          rcases List.mem_cons.mp hc' with rfl | hc'
          · -- the lines taken end in a newline, which is in the chunk
            rcases flatten_eq_nil_or_concat hdone with hnil | ⟨before, hbefore⟩
            · exact absurd hnil htake
            · have hmem : newline ∈ left ++ c' := by simp [htaken, hbefore]
              exact absurd hmem (by simp [hleft, hnot])
          · exact ⟨c', hc', hnot⟩
        have := hlt hno hlater
        omega

end

theorem matches_nil (l : List UInt8) : Matches [] l = true := by
  rw [Matches, matchText]
  cases l.dropLast <;> simp [matchLoop, matchhere]

/-- For every expression the lines that match are written, in their order, exactly if there is a newline in
all that `read` returns. -/
theorem grep_lines {chunks lines : List (List UInt8)} (hlines : ∀ l ∈ lines, IsLine l)
    (hstream : chunks.flatten = lines.flatten) (hfit : Offered [] chunks) :
    (∀ (pattern : List UInt8) (buf : Buffer), grep pattern buf chunks = lines.filter (Matches pattern)) ↔
      ∀ c ∈ chunks, newline ∈ c := by
  refine ⟨fun hgrep c hc => ?_, fun hwhen pattern buf => ?_⟩
  · by_contra hnot
    have hempty : (Bytes.zero : Buffer).slice 0 ([] : List UInt8).length = [] := rfl
    have hless := (grepLoop_length hlines hempty [] [] (chunks.flatten.length + 1) hstream.symm hfit).2
      List.not_mem_nil ⟨c, hc, hnot⟩
    have hall := hgrep [] Bytes.zero
    rw [List.filter_eq_self.mpr fun l _ => matches_nil l, grep] at hall
    rw [List.length_nil, hall] at hless
    simp at hless
  · have hn := hfit.length_le
    exact grepLoop_lines hlines rfl hstream.symm List.not_mem_nil hfit hwhen (by omega)

theorem grep_lines_two : grep [98] Bytes.zero [[97, newline, 97], [98, newline]] = [[97, 98, newline]] := by
  have hline (w : List UInt8) (hw : newline ∉ w) (hnul : 0 ∉ w ++ [newline])
      (hlen : (w ++ [newline]).length ≤ bufSize - 1) : IsLine (w ++ [newline]) :=
    ⟨⟨w, rfl, hw⟩, hnul, hlen⟩
  have hlines : ∀ l ∈ [[97] ++ [newline], [97, 98] ++ [newline]], IsLine l := by
    intro l hl
    rcases List.mem_cons.mp hl with rfl | hl
    · exact hline [97] (by decide) (by decide) (by decide)
    · rw [List.mem_singleton.mp hl]
      exact hline [97, 98] (by decide) (by decide) (by decide)
  have hfit : Offered [] [[97, newline, 97], [98, newline]] :=
    ⟨by decide, by decide, by decide, by decide, trivial⟩
  have hstream : [[97, newline, 97], [98, newline]].flatten =
    [[97] ++ [newline], [97, 98] ++ [newline]].flatten := rfl
  exact (grep_lines hlines hstream hfit).mpr (by decide) [98] Bytes.zero

/-- A line that comes in two parts loses the first. -/
theorem grep_loses_start : ∃ chunks lines : List (List UInt8), (∀ l ∈ lines, IsLine l) ∧
    chunks.flatten = lines.flatten ∧ Offered [] chunks ∧
    grep [97] Bytes.zero chunks ≠ lines.filter (Matches [97]) := by
  refine ⟨[[97], [98, newline]], [[97, 98] ++ [newline]], fun l hl => ?_, rfl, ?_, ?_⟩
  · rw [List.mem_singleton.mp hl]
    exact ⟨⟨[97, 98], rfl, by decide⟩, by decide, by decide⟩
  · exact ⟨by decide, by decide, by decide, by decide, trivial⟩
  · decide +kernel

end Grep

end Xv6
