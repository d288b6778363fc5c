/-
Text messages made of lines that end in CRLF.

`splitCRLF` cuts a string at every CRLF and keeps what follows the last one.
Cutting inverts writing as long as no line contains a CR, and `splitCRLF_lines`
is that statement for any number of lines.
-/
import MediaServer.Text.Str

namespace MediaServer
namespace Text

def crlf : Str := ['\r', '\n']

/-- The lines of `s` that a CRLF ends, and the text after the last CRLF. -/
def splitCRLF : Str → List Str × Str
  | [] => ([], [])
  | '\r' :: '\n' :: s => ([] :: (splitCRLF s).1, (splitCRLF s).2)
  | c :: s =>
    match splitCRLF s with
    | ([], r) => ([], c :: r)
    | (l :: ls, r) => ((c :: l) :: ls, r)

theorem splitCRLF_crlf (s : Str) :
    splitCRLF (crlf ++ s) = ([] :: (splitCRLF s).1, (splitCRLF s).2) := rfl

/-- A character that does not start a CRLF belongs to the line it stands in. -/
theorem splitCRLF_cons {c : Char} {s : Str} (h : ∀ s', c = '\r' → s ≠ '\n' :: s') :
    splitCRLF (c :: s) =
      match splitCRLF s with
      | ([], r) => ([], c :: r)
      | (l :: ls, r) => ((c :: l) :: ls, r) := by
  conv => lhs; unfold splitCRLF
  split
  · contradiction
  · rename_i heq
    obtain ⟨hc, hs⟩ := List.cons.inj heq
    exact absurd hs (h _ hc)
  · rename_i heq
    obtain ⟨rfl, rfl⟩ := List.cons.inj heq
    rfl

theorem splitCRLF_line {l : Str} (hl : '\r' ∉ l) (s : Str) :
    splitCRLF (l ++ crlf ++ s) = (l :: (splitCRLF s).1, (splitCRLF s).2) := by
  induction l with
  | nil => exact splitCRLF_crlf s
  | cons c l ih =>
    have hc : c ≠ '\r' := fun e => hl (e ▸ List.mem_cons_self)
    have hr : '\r' ∉ l := fun h => hl (List.mem_cons_of_mem c h)
    rw [List.cons_append, List.cons_append, splitCRLF_cons fun _ e => absurd e hc, ih hr]

/-- Lines without a CR come back as they were written, with nothing left over. -/
theorem splitCRLF_lines {ls : List Str} (h : ∀ l ∈ ls, '\r' ∉ l) :
    splitCRLF (ls.flatMap (· ++ crlf)) = (ls, []) := by
  induction ls with
  | nil => rfl
  | cons l ls ih =>
    rw [List.flatMap_cons, splitCRLF_line (h l List.mem_cons_self),
      ih (fun l' hl' => h l' (List.mem_cons_of_mem l hl'))]

/-- The lines after a CRLF are not affected by what stands before it, which makes
at least one line of its own. -/
theorem splitCRLF_append_crlf (p s : Str) :
    ∃ l ls, (splitCRLF (p ++ crlf ++ s)).1 = l :: ls ++ (splitCRLF s).1 := by
  have hcons (c : Char) (p : Str) (hc : ∀ p', c = '\r' → p ≠ '\n' :: p')
      (ih : ∃ l ls, (splitCRLF (p ++ crlf ++ s)).1 = l :: ls ++ (splitCRLF s).1) :
      ∃ l ls, (splitCRLF (c :: p ++ crlf ++ s)).1 = l :: ls ++ (splitCRLF s).1 := by
    obtain ⟨l, ls, h⟩ := ih
    refine ⟨c :: l, ls, ?_⟩
    have hc' : ∀ s', c = '\r' → p ++ crlf ++ s ≠ '\n' :: s' := by
      intro s' hr heq
      cases p with
      | nil => cases heq
      | cons d p => exact hc p hr (by rw [(List.cons.inj heq).1])
    rw [List.cons_append, List.cons_append, splitCRLF_cons hc']
    rcases hsplit : splitCRLF (p ++ crlf ++ s) with ⟨_ | ⟨l', ls'⟩, r⟩
    · rw [hsplit] at h
      cases h
    · rw [hsplit] at h
      obtain ⟨rfl, hls⟩ := List.cons.inj h
      exact congrArg ((c :: l') :: ·) hls
  induction p using splitCRLF.induct with
  | case1 => exact ⟨[], [], rfl⟩
  | case2 p ih =>
    obtain ⟨l, ls, h⟩ := ih
    exact ⟨[], l :: ls, congrArg ([] :: ·) h⟩
  | case3 c p hc _ _ ih => exact hcons c p hc ih
  | case4 c p hc _ _ _ _ ih => exact hcons c p hc ih

/-- A line without a CR is found again among any other lines. -/
theorem mem_splitCRLF {l : Str} (hl : '\r' ∉ l) {ls : List Str} (h : l ∈ ls) :
    l ∈ (splitCRLF (ls.flatMap (· ++ crlf))).1 := by
  induction ls with
  | nil => cases h
  | cons x ls ih =>
    rw [List.flatMap_cons]
    rcases List.mem_cons.mp h with rfl | h
    · rw [splitCRLF_line hl]
      exact List.mem_cons_self
    · obtain ⟨y, ys, heq⟩ := splitCRLF_append_crlf x (ls.flatMap (· ++ crlf))
      rw [heq]
      exact List.mem_append_right _ (ih h)

end Text
end MediaServer
