/-
Running a scanner through a text in memory.

`doRun` reads whole words, the first and the last of which may hold bytes that
are not of the text, and skips the double words that have no byte leading out of
the state.  It comes to the state that the text leads to byte by byte
(`doRun_eq`), wherever in memory the text is and whatever is around it.

A word has eight bytes, and a double word, for which the instruction set SSE2 is
used, has sixteen.
-/
import MediaServer.Pire.Scanner

namespace MediaServer
namespace Pire

abbrev Memory := Nat → UInt8

namespace Scanner

/-! ## The code -/

/-- The word at `p`, its first byte the lowest. -/
def word (mem : Memory) (p : Nat) : Nat :=
  (List.range 8).foldr (fun i w => (mem (p + i)).toNat + 256 * w) 0

/-- The loop of `RunChunk` -/
def stepChunk (sc : Scanner) : Nat → Nat → Nat → Nat
  | 0, _, s => s
  | n + 1, chunk, s =>
    stepChunk sc n (chunk >>> 8) (sc.next s (byte (UInt8.ofNat (chunk &&& 0xFF))).1)

/-- The `n` bytes from place `pos` of the word at `p` on. -/
def runChunk (sc : Scanner) (mem : Memory) (s p pos n : Nat) : Nat :=
  stepChunk sc n (word mem p >>> (8 * pos)) s

/-- `n` words -/
def runWords (sc : Scanner) (mem : Memory) : Nat → Nat → Nat → Nat
  | 0, _, s => s
  | n + 1, p, s => runWords sc mem n (p + 8) (runChunk sc mem s p 0 8)

/-- `CheckBytes` for a mask that repeats one byte -/
def checkBytes (b : UInt8) (mem : Memory) (p : Nat) : Bool :=
  (List.range 16).any fun i => mem (p + i) = b

/-- No byte of the double word is one of the two. -/
def check (first last : UInt8) (mem : Memory) (p : Nat) : Bool :=
  if first = last then !checkBytes first mem p
  else !(checkBytes last mem p || checkBytes first mem p)

/-- How many of `n` double words are skipped. -/
def skipped (first last : UInt8) (mem : Memory) : Nat → Nat → Nat
  | 0, _ => 0
  | n + 1, p => if check first last mem p then skipped first last mem n (p + 16) + 1 else 0

/-- The loop of `RunAligned` over `n` double words, and whether it has stopped
before it was through. -/
def runDouble (sc : Scanner) (mem : Memory) : Nat → Bool → Nat → Nat → Nat → Nat × Bool
  | 0, _, _, _, s => (s, false)
  | fuel + 1, noShortcut, n, p, s =>
    if n = 0 then (s, false)
    else if noShortcut then
      let t := runWords sc mem 2 p s
      runDouble sc mem fuel (sc.shortcuts t = .noShortcut) (n - 1) (p + 16) t
    else match sc.shortcuts s with
      | .noExit => (s, true)
      | .masks first last =>
        let k := skipped first last mem n p
        runDouble sc mem fuel true (n - k) (p + 16 * k) s
      | .noShortcut => runDouble sc mem fuel true n p s

def alignDown (a bound : Nat) : Nat := a - a % bound

def alignUp (a bound : Nat) : Nat := alignDown (a + (bound - 1)) bound

/-- `RunAligned` between the words at `p` and at `q`.  A step of the loop is a
double word or a skip, and a skip is followed by a double word. -/
def runAligned (sc : Scanner) (mem : Memory) (s p q : Nat) : Nat :=
  let head := alignUp p 16
  let tail := alignDown q 16
  let s := runWords sc mem ((min head q - p) / 8) p s
  if q ≤ head then s
  else if sc.shortcuts s = .noExit then s
  else
    let n := (tail - head) / 16
    let r := runDouble sc mem (2 * n + 2) (sc.shortcuts s = .noShortcut) n head s
    if r.2 then r.1 else runWords sc mem ((q - tail) / 8) tail r.1

/-- `DoRun` -/
def doRun (sc : Scanner) (mem : Memory) (s p q : Nat) : Nat :=
  let head := alignDown p 8
  let tail := alignDown q 8
  let headSize := head + 8 - p
  let tailSize := q - tail
  if head = tail then runChunk sc mem s head (8 - headSize) (q - p)
  else
    let s := if p = head then s else runChunk sc mem s head (8 - headSize) headSize
    let s := runAligned sc mem s (if p = head then head else head + 8) tail
    if tailSize = 0 then s else runChunk sc mem s tail 0 tailSize

/-- A text, between the marks for its ends. -/
def runText (sc : Scanner) (mem : Memory) (p n : Nat) : Nat :=
  sc.next (sc.doRun mem (sc.next sc.initial beginMark) p (p + n)) endMark

/-- `Matches` -/
def matchesText (sc : Scanner) (mem : Memory) (p n : Nat) : Bool := sc.finals (sc.runText mem p n)

/-! ## Words -/

/-- The bytes of the text at `p`. -/
def textAt (mem : Memory) (p n : Nat) : List UInt8 := (List.range n).map fun i => mem (p + i)

/-- The state that bytes lead to, one by one. -/
def feed (sc : Scanner) (s : Nat) (text : List UInt8) : Nat :=
  text.foldl (fun s b => sc.next s (byte b).1) s

theorem textAt_append (mem : Memory) (p n k : Nat) :
    textAt mem p (n + k) = textAt mem p n ++ textAt mem (p + n) k := by
  unfold textAt
  rw [List.range_add, List.map_append, List.map_map]
  simp only [Function.comp_def, Nat.add_assoc]

theorem feed_append (sc : Scanner) (s : Nat) (x y : List UInt8) :
    sc.feed s (x ++ y) = sc.feed (sc.feed s x) y := List.foldl_append

theorem feed_textAt_add (sc : Scanner) (mem : Memory) (s p n k : Nat) :
    sc.feed s (textAt mem p (n + k)) =
      sc.feed (sc.feed s (textAt mem p n)) (textAt mem (p + n) k) := by
  rw [textAt_append, feed_append]

/-- The lowest bytes of a word that is put together from `l`. -/
theorem stepChunk_foldr (sc : Scanner) (l : List UInt8) (n s : Nat) (hn : n ≤ l.length) :
    stepChunk sc n (l.foldr (fun b w => b.toNat + 256 * w) 0) s = sc.feed s (l.take n) := by
  induction n generalizing l s with
  | zero => rfl
  | succ n ih =>
    cases l with
    | nil => exact absurd hn (Nat.not_succ_le_zero n)
    | cons b l =>
      have hb := b.toNat_lt
      have hlow : (b.toNat + 256 * l.foldr (fun b w => b.toNat + 256 * w) 0) &&& 0xFF =
          b.toNat := by
        rw [show (0xFF : Nat) = 2 ^ 8 - 1 from rfl, Nat.and_two_pow_sub_one_eq_mod]
        omega
      have hhigh : (b.toNat + 256 * l.foldr (fun b w => b.toNat + 256 * w) 0) >>> 8 =
          l.foldr (fun b w => b.toNat + 256 * w) 0 := by
        rw [Nat.shiftRight_eq_div_pow]
        omega
      rw [List.foldr_cons, stepChunk, hlow, hhigh, UInt8.ofNat_toNat, List.take_succ_cons]
      exact ih l _ (Nat.le_of_succ_le_succ hn)

theorem word_eq_foldr (mem : Memory) (p : Nat) :
    word mem p = (textAt mem p 8).foldr (fun b w => b.toNat + 256 * w) 0 := by
  unfold word textAt
  rw [List.foldr_map]

/-- What is left of a word behind its first bytes. -/
theorem foldr_shiftRight (l : List UInt8) (pos : Nat) (hpos : pos ≤ l.length) :
    (l.foldr (fun b w => b.toNat + 256 * w) 0) >>> (8 * pos) =
      (l.drop pos).foldr (fun b w => b.toNat + 256 * w) 0 := by
  induction pos generalizing l with
  | zero => rfl
  | succ pos ih =>
    cases l with
    | nil => exact absurd hpos (Nat.not_succ_le_zero pos)
    | cons b l =>
      have hb := b.toNat_lt
      rw [Nat.mul_succ, Nat.add_comm, Nat.shiftRight_add, List.foldr_cons, List.drop_succ_cons,
        ← ih l (Nat.le_of_succ_le_succ hpos)]
      congr 1
      rw [Nat.shiftRight_eq_div_pow]
      omega

theorem runChunk_eq (sc : Scanner) (mem : Memory) (s p pos n : Nat) (h : pos + n ≤ 8) :
    runChunk sc mem s p pos n = sc.feed s (textAt mem (p + pos) n) := by
  have hlen : (textAt mem p 8).length = 8 := by
    unfold textAt
    rw [List.length_map, List.length_range]
  have hdrop : ((textAt mem p 8).drop pos).take n = textAt mem (p + pos) n := by
    obtain ⟨r, hr⟩ := Nat.exists_eq_add_of_le h
    rw [hr, Nat.add_assoc, textAt_append, List.drop_left' (by simp [textAt]), textAt_append,
      List.take_left' (by simp [textAt])]
  unfold runChunk
  rw [word_eq_foldr, foldr_shiftRight _ _ (by rw [hlen]; omega),
    stepChunk_foldr sc _ n s (by rw [List.length_drop, hlen]; omega), hdrop]

theorem runWords_eq (sc : Scanner) (mem : Memory) (n p s : Nat) :
    runWords sc mem n p s = sc.feed s (textAt mem p (8 * n)) := by
  induction n generalizing p s with
  | zero => rfl
  | succ n ih =>
    rw [runWords, runChunk_eq sc mem s p 0 8 (Nat.le_refl 8), ih, Nat.mul_succ,
      Nat.add_comm (8 * n) 8, feed_textAt_add]
    rfl

/-! ## Shortcuts -/

section Shortcuts

variable {sc : Scanner} {Q : Nat → Prop}

/-- Bytes that do not lead out of a state. -/
theorem feed_eq_self {s : Nat} {text : List UInt8} (h : ∀ b ∈ text, sc.next s (byte b).1 = s) :
    sc.feed s text = s := by
  induction text with
  | nil => rfl
  | cons b text ih =>
    show sc.feed (sc.next s (byte b).1) text = s
    rw [h b List.mem_cons_self]
    exact ih fun c hc => h c (List.mem_cons_of_mem b hc)

theorem feed_closed (hQ : ∀ s, Q s → ∀ b, Q (sc.next s (byte b).1)) {s : Nat} (hs : Q s)
    (text : List UInt8) : Q (sc.feed s text) := by
  induction text generalizing s with
  | nil => exact hs
  | cons b text ih => exact ih (hQ s hs b)

theorem mem_textAt {mem : Memory} {p n : Nat} {b : UInt8} :
    b ∈ textAt mem p n ↔ ∃ i < n, mem (p + i) = b := by
  unfold textAt
  rw [List.mem_map]
  simp only [List.mem_range]

theorem checkBytes_eq (b : UInt8) (mem : Memory) (p : Nat) :
    checkBytes b mem p = true ↔ b ∈ textAt mem p 16 := by
  unfold checkBytes
  rw [List.any_eq_true, mem_textAt]
  simp only [List.mem_range, decide_eq_true_eq]

theorem check_eq (first last : UInt8) (mem : Memory) (p : Nat) :
    check first last mem p = true ↔ first ∉ textAt mem p 16 ∧ last ∉ textAt mem p 16 := by
  unfold check
  split
  · rename_i he
    rw [Bool.not_eq_true', Bool.eq_false_iff, ne_eq, checkBytes_eq, he, and_self]
  · rw [Bool.not_eq_true', Bool.eq_false_iff, ne_eq, Bool.or_eq_true, not_or, checkBytes_eq,
      checkBytes_eq, and_comm]

/-- The double words that are skipped have no byte that leads out. -/
theorem skipped_spec {first last : UInt8} (mem : Memory) (n p s : Nat)
    (h : Shortcut.Names sc s (.masks first last)) :
    skipped first last mem n p ≤ n ∧
      sc.feed s (textAt mem p (16 * skipped first last mem n p)) = s := by
  induction n generalizing p with
  | zero => exact ⟨Nat.le_refl 0, rfl⟩
  | succ n ih =>
    unfold skipped
    split
    · rename_i hcheck
      obtain ⟨h1, h2⟩ := (check_eq first last mem p).mp hcheck
      obtain ⟨hle, hfeed⟩ := ih (p + 16)
      refine ⟨Nat.succ_le_succ hle, ?_⟩
      have hone : sc.feed s (textAt mem p 16) = s :=
        feed_eq_self fun b hb => h b (fun he => h1 (he ▸ hb)) (fun he => h2 (he ▸ hb))
      rw [Nat.mul_succ, Nat.add_comm _ 16, feed_textAt_add, hone, hfeed]
    · exact ⟨Nat.zero_le _, rfl⟩

/-- The loop comes to where the bytes lead, and when it stops early no byte leads
out of the state. -/
theorem runDouble_spec (hQ : ∀ s, Q s → ∀ b, Q (sc.next s (byte b).1))
    (hnames : ∀ s, Q s → Shortcut.Names sc s (sc.shortcuts s)) (mem : Memory) (fuel : Nat)
    (noShortcut : Bool) (n p s : Nat) (hs : Q s)
    (hfuel : 2 * n + (if noShortcut then 1 else 2) ≤ fuel) :
    (runDouble sc mem fuel noShortcut n p s).1 = sc.feed s (textAt mem p (16 * n)) ∧
      ((runDouble sc mem fuel noShortcut n p s).2 = true →
        sc.shortcuts (runDouble sc mem fuel noShortcut n p s).1 = .noExit) := by
  induction fuel generalizing noShortcut n p s with
  | zero =>
    split at hfuel <;> omega
  | succ fuel ih =>
    unfold runDouble
    by_cases hn : n = 0
    · rw [if_pos hn, hn]
      exact ⟨rfl, fun h => absurd h Bool.false_ne_true⟩
    · rw [if_neg hn]
      cases noShortcut with
      | true =>
        rw [if_pos rfl] at hfuel
        rw [if_pos rfl]
        have hstep : runWords sc mem 2 p s = sc.feed s (textAt mem p 16) := runWords_eq sc mem 2 p s
        have hn' : 16 * n = 16 + 16 * (n - 1) := by omega
        rw [hn', feed_textAt_add, ← hstep]
        refine ih _ _ _ _ ?_ ?_
        · rw [hstep]
          exact feed_closed hQ hs _
        · split <;> omega
      | false =>
        rw [if_neg Bool.false_ne_true] at hfuel
        rw [if_neg Bool.false_ne_true]
        have hname := hnames s hs
        cases hsc : sc.shortcuts s with
        | noShortcut => exact ih true n p s hs (by rw [if_pos rfl]; omega)
        | noExit =>
          rw [hsc] at hname
          exact ⟨(feed_eq_self fun b _ => hname b).symm, fun _ => hsc⟩
        | masks first last =>
          rw [hsc] at hname
          obtain ⟨hle, hskip⟩ := skipped_spec mem n p s hname
          have hn' : 16 * n = 16 * skipped first last mem n p +
              16 * (n - skipped first last mem n p) := by omega
          rw [hn', feed_textAt_add, hskip]
          exact ih true _ _ s hs (by rw [if_pos rfl]; omega)

theorem feed_noExit (hnames : ∀ s, Q s → Shortcut.Names sc s (sc.shortcuts s)) {s : Nat} (hs : Q s)
    (h : sc.shortcuts s = .noExit) (text : List UInt8) : sc.feed s text = s := by
  have hname := hnames s hs
  rw [h] at hname
  exact feed_eq_self fun b _ => hname b

theorem runAligned_eq (hQ : ∀ s, Q s → ∀ b, Q (sc.next s (byte b).1))
    (hnames : ∀ s, Q s → Shortcut.Names sc s (sc.shortcuts s)) (mem : Memory) {p q s : Nat}
    (hs : Q s) (hp : p % 8 = 0) (hq : q % 8 = 0) (hpq : p ≤ q) :
    runAligned sc mem s p q = sc.feed s (textAt mem p (q - p)) := by
  unfold runAligned
  simp only [runWords_eq]
  set head := alignUp p 16 with hhead
  set tail := alignDown q 16 with htail
  have hhead' : head = p + 15 - (p + 15) % 16 := hhead
  have htail' : tail = q - q % 16 := htail
  by_cases hle : q ≤ head
  · rw [if_pos hle, Nat.min_eq_right hle]
    congr 2
    omega
  · rw [if_neg hle, Nat.min_eq_left (Nat.le_of_not_le hle)]
    have hfirst : 8 * ((head - p) / 8) = head - p := by omega
    rw [hfirst]
    set t := sc.feed s (textAt mem p (head - p)) with ht
    have htQ : Q t := feed_closed hQ hs _
    have hsplit : sc.feed s (textAt mem p (q - p)) = sc.feed t (textAt mem head (q - head)) := by
      have hlen : q - p = (head - p) + (q - head) := by omega
      rw [hlen, feed_textAt_add]
      congr 2
      omega
    rw [hsplit]
    by_cases hexit : sc.shortcuts t = .noExit
    · rw [if_pos hexit, feed_noExit hnames htQ hexit]
    · rw [if_neg hexit]
      obtain ⟨hr, hstop⟩ := runDouble_spec hQ hnames mem (2 * ((tail - head) / 16) + 2)
        (sc.shortcuts t = .noShortcut) ((tail - head) / 16) head t htQ (by split <;> omega)
      set r := runDouble sc mem (2 * ((tail - head) / 16) + 2)
        (sc.shortcuts t = .noShortcut) ((tail - head) / 16) head t
      have hmid : 16 * ((tail - head) / 16) = tail - head := by omega
      rw [hmid] at hr
      have hlast : sc.feed t (textAt mem head (q - head)) =
          sc.feed r.1 (textAt mem tail (q - tail)) := by
        have hlen : q - head = (tail - head) + (q - tail) := by omega
        rw [hlen, feed_textAt_add, hr]
        congr 2
        omega
      rw [hlast]
      split
      · rename_i hstopped
        have hrQ : Q r.1 := by
          rw [hr]
          exact feed_closed hQ htQ _
        exact (feed_noExit hnames hrQ (hstop hstopped) _).symm
      · congr 2
        omega

/-- The text is run through byte by byte, whatever is read at a time. -/
theorem doRun_eq (hQ : ∀ s, Q s → ∀ b, Q (sc.next s (byte b).1))
    (hnames : ∀ s, Q s → Shortcut.Names sc s (sc.shortcuts s)) (mem : Memory) {p q s : Nat}
    (hs : Q s) (hpq : p ≤ q) : doRun sc mem s p q = sc.feed s (textAt mem p (q - p)) := by
  unfold doRun
  set head := alignDown p 8 with hhead
  set tail := alignDown q 8 with htail
  have hhead' : head = p - p % 8 := hhead
  have htail' : tail = q - q % 8 := htail
  simp only []
  by_cases hsame : head = tail
  · rw [if_pos hsame, runChunk_eq _ _ _ _ _ _ (by omega)]
    congr 2
    omega
  · rw [if_neg hsame]
    have hmain : ∀ first s', (first = if p = head then head else head + 8) →
        s' = sc.feed s (textAt mem p (first - p)) →
        (if q - tail = 0 then runAligned sc mem s' first tail
          else runChunk sc mem (runAligned sc mem s' first tail) tail 0 (q - tail)) =
        sc.feed s (textAt mem p (q - p)) := by
      intro first s' hfirst hs'
      have hbounds : p ≤ first ∧ first ≤ tail ∧ first % 8 = 0 := by
        split at hfirst <;> omega
      obtain ⟨h1, h2, h3⟩ := hbounds
      have hQ' : Q s' := by
        rw [hs']
        exact feed_closed hQ hs _
      have haligned := runAligned_eq hQ hnames mem hQ' h3 (by omega) h2
      have hlen : q - p = (first - p) + ((tail - first) + (q - tail)) := by omega
      have hfp : p + (first - p) = first := by omega
      have hft : first + (tail - first) = tail := by omega
      rw [hlen, feed_textAt_add, feed_textAt_add, ← hs', hfp, hft, haligned]
      split
      · rename_i hzero
        rw [hzero]
        rfl
      · rw [runChunk_eq _ _ _ _ _ _ (by omega)]
        rfl
    refine hmain _ _ rfl ?_
    split
    · rename_i hph
      rw [← hph, Nat.sub_self]
      rfl
    · rw [runChunk_eq _ _ _ _ _ _ (by omega)]
      congr 2
      omega

end Shortcuts

end Scanner

end Pire
end MediaServer
