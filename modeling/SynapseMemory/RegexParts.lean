import SynapseMemory.Regex

/-!
# What is left between the matches of a regular expression

To replace the matches of a text is to put the replacement between its `parts`. A replacement that
is inert for an expression has no match in it and cuts off what stands around it, so the parts are
searched one by one.

If every match begins and ends at a boundary, what matches in a part matches in the text
(`occurs_of_part`): to replace then creates no matches (`occurs_of_replaceAll`). It leaves none of
its own, and so for an expression for which boundaries do not matter (`not_occurs_replaceAll`). But
such an expression may part the text where there was no boundary, and there is one after it.
-/

namespace Regex

variable [WordChars]

open WordChars (isWord)

/-! ## Parts of a text -/

/-- What is between the matches. -/
def parts (r : Regex) : ℕ → Bool → List Char → List (List Char)
  | _, _, [] => [[]]
  | k + 1, _, c :: t => parts r k (isWord c) t
  | 0, b, c :: t =>
    match r.matchLength b (c :: t) with
    | 0 => (parts r 0 (isWord c) t).modifyHead (c :: ·)
    | n + 1 => [] :: parts r n (isWord c) t

theorem parts_cons_of_zero {r : Regex} {b : Bool} {c : Char} {t : List Char}
    (h : r.matchLength b (c :: t) = 0) :
    r.parts 0 b (c :: t) = (r.parts 0 (isWord c) t).modifyHead (c :: ·) := by
  rw [parts, h]

theorem parts_cons_of_succ {r : Regex} {b : Bool} {c : Char} {t : List Char} {n : ℕ}
    (h : r.matchLength b (c :: t) = n + 1) :
    r.parts 0 b (c :: t) = [] :: r.parts n (isWord c) t := by
  rw [parts, h]

/-- There is always a part. -/
theorem parts_ne_nil (r : Regex) (k : ℕ) (b : Bool) (t : List Char) : r.parts k b t ≠ [] := by
  induction t generalizing k b with
  | nil => cases k <;> exact List.cons_ne_nil _ _
  | cons c t ih =>
    cases k with
    | succ k => exact ih k (isWord c)
    | zero =>
      cases hn : r.matchLength b (c :: t) with
      | zero =>
        rw [parts_cons_of_zero hn]
        cases hparts : r.parts 0 (isWord c) t with
        | nil => exact absurd hparts (ih 0 (isWord c))
        | cons p ps => exact List.cons_ne_nil _ _
      | succ n =>
        rw [parts_cons_of_succ hn]
        exact List.cons_ne_nil _ _

omit [WordChars] in
theorem intercalate_cons {ps : List (List Char)} (hps : ps ≠ []) (ph p : List Char) :
    ph.intercalate (p :: ps) = p ++ (ph ++ ph.intercalate ps) := by
  cases ps with
  | nil => exact absurd rfl hps
  | cons q qs => rw [List.intercalate_cons_cons, List.append_assoc]

/-- The replacement comes between the parts. -/
theorem intercalate_parts (r : Regex) (by_ : List Char) (k : ℕ) (b : Bool) (t : List Char) :
    by_.intercalate (r.parts k b t) = r.replaceAll by_ k b t := by
  induction t generalizing k b with
  | nil => cases k <;> exact List.intercalate_singleton
  | cons c t ih =>
    cases k with
    | succ k => exact ih k (isWord c)
    | zero =>
      cases hn : r.matchLength b (c :: t) with
      | zero =>
        rw [parts_cons_of_zero hn, replaceAll_cons_of_zero hn, ← ih]
        cases hparts : r.parts 0 (isWord c) t with
        | nil => exact absurd hparts (r.parts_ne_nil 0 _ t)
        | cons p ps =>
          cases ps with
          | nil => rw [List.modifyHead_cons, List.intercalate_singleton, List.intercalate_singleton]
          | cons q qs =>
            rw [List.modifyHead_cons, intercalate_cons (List.cons_ne_nil q qs),
              intercalate_cons (List.cons_ne_nil q qs), List.cons_append]
      | succ n =>
        rw [parts_cons_of_succ hn, replaceAll_cons_of_succ hn,
          intercalate_cons (r.parts_ne_nil n _ t), ih, List.nil_append]

/-- The parts of a text with inert texts between them are searched one by one. -/
theorem Inert.replaceAll_intercalate {r : Regex} {ph : List Char} (h : r.Inert ph)
    (by_ : List Char) {ps : List (List Char)} (hps : ps ≠ []) :
    r.replaceAll by_ 0 false (ph.intercalate ps) =
      ph.intercalate (ps.map (r.replaceAll by_ 0 false)) := by
  induction ps with
  | nil => exact absurd rfl hps
  | cons p ps ih =>
    cases ps with
    | nil => rw [List.map_singleton, List.intercalate_singleton, List.intercalate_singleton]
    | cons q qs =>
      have hne := List.cons_ne_nil q qs
      rw [intercalate_cons hne, h.replaceAll_append, ih hne,
        ← intercalate_cons (List.map_eq_nil_iff.not.mpr hne), ← List.map_cons]

/-- A match in the joined parts is in one of them. -/
theorem Inert.occurs_intercalate {r : Regex} {ph : List Char} (h : r.Inert ph)
    {ps : List (List Char)} (hps : ps ≠ []) :
    r.Occurs false (ph.intercalate ps) ↔ ∃ p ∈ ps, r.Occurs false p := by
  induction ps with
  | nil => exact absurd rfl hps
  | cons p ps ih =>
    cases ps with
    | nil => simp
    | cons q qs =>
      have hne := List.cons_ne_nil q qs
      rw [intercalate_cons hne, h.occurs_append, ih hne]
      exact (List.exists_mem_cons_iff _ _ _).symm

/-! ## What matches in a part -/

/-- No match starts in the first text, where the second one comes after it. -/
def NoStart (r : Regex) (b : Bool) (u v : List Char) : Prop :=
  ∀ x y, u = x ++ y → y ≠ [] → ¬r.Here (after b x) (y ++ v)

theorem NoStart.cons {r : Regex} {b : Bool} {c : Char} {u v : List Char}
    (hc : ¬r.Here b (c :: (u ++ v))) (h : r.NoStart (isWord c) u v) : r.NoStart b (c :: u) v := by
  intro x y hxy hy
  cases x with
  | nil =>
    obtain rfl : c :: u = y := hxy
    exact hc
  | cons d x =>
    obtain ⟨rfl, rfl⟩ := List.cons.inj hxy
    exact h x y rfl hy

/-- A text, and its parts. -/
inductive Parted (r : Regex) : Bool → List Char → List (List Char) → Prop where
  | last {b : Bool} {u : List Char} (hu : r.NoStart b u []) : Parted r b u [u]
  | cons {b : Bool} {u w v : List Char} {ps : List (List Char)} (hu : r.NoStart b u (w ++ v))
      (hw : r.Matches (boundaryAt (after b u) (w ++ v)) w)
      (hv : Parted r (after b (u ++ w)) v ps) : Parted r b (u ++ (w ++ v)) (u :: ps)

theorem Parted.push {r : Regex} {b : Bool} {c : Char} {t : List Char} {ps : List (List Char)}
    (hc : ¬r.Here b (c :: t)) (h : r.Parted (isWord c) t ps) :
    r.Parted b (c :: t) (ps.modifyHead (c :: ·)) := by
  cases h with
  | last hu => exact .last (NoStart.cons (by rwa [List.append_nil]) hu)
  | cons hu hw hv => exact .cons (NoStart.cons hc hu) hw hv

/-- The parts after a match. -/
theorem parts_append (r : Regex) (b : Bool) (u t : List Char) :
    r.parts u.length b (u ++ t) = r.parts 0 (after b u) t := by
  induction u generalizing b with
  | nil => rfl
  | cons c u ih => exact ih (isWord c)

/-- What the engine leaves are the parts. -/
theorem parted_parts {r : Regex} (hr : r.Consuming) (b : Bool) (t : List Char) :
    r.Parted b t (r.parts 0 b t) := by
  induction hlen : t.length using Nat.strong_induction_on generalizing b t with
  | _ len ih =>
    cases t with
    | nil => exact .last fun x y hxy hy => absurd (List.append_eq_nil_iff.mp hxy.symm).2 hy
    | cons c t =>
      cases hn : r.matchLength b (c :: t) with
      | zero =>
        rw [parts_cons_of_zero hn]
        have hc : ¬r.Here b (c :: t) := fun h => matchLength_of_here hr h hn
        exact (ih t.length (by rw [← hlen]; exact Nat.lt_succ_self _) (isWord c) t rfl).push hc
      | succ n =>
        obtain ⟨w, v, ht, hw, hmatch⟩ := matchLength_spec (by rw [hn]; exact Nat.succ_ne_zero n)
        cases w with
        | nil => exact absurd (hw.trans hn) (Nat.succ_ne_zero n).symm
        | cons d w =>
          rw [List.cons_append] at ht
          obtain ⟨rfl, rfl⟩ := List.cons.inj ht
          obtain rfl : w.length = n := Nat.succ.inj (hw.trans hn)
          rw [parts_cons_of_succ hn, parts_append]
          have hv : v.length < len := by
            rw [← hlen, List.length_cons, List.length_append]
            omega
          have hu : r.NoStart b [] (c :: w ++ v) := fun x y hxy hy =>
            absurd (List.append_eq_nil_iff.mp hxy.symm).2 hy
          exact .cons hu hmatch (ih v.length hv _ v rfl)

/-- Every match begins and ends at a boundary. -/
def Bounded (r : Regex) : Prop := ∀ B w, r.Matches B w → B 0 ∧ B w.length

/-- Boundaries do not matter. -/
def Unbounded (r : Regex) : Prop := ∀ B B' w, r.Matches B w → r.Matches B' w

theorem boundaryAt_extend {b : Bool} {u z : List Char}
    (hend : z = [] ∨ boundaryAt (after b u) z 0) {k : ℕ} (hk : k ≤ u.length)
    (h : boundaryAt b u k) : boundaryAt b (u ++ z) k := by
  induction u generalizing b k with
  | nil =>
    obtain rfl := Nat.le_zero.mp hk
    rcases hend with rfl | hend
    · exact h
    · exact hend
  | cons c u ih =>
    cases k with
    | zero => exact h
    | succ k => exact ih hend (Nat.le_of_succ_le_succ hk) h

/-- The boundaries of a part are boundaries of the text, if it begins and ends at one. -/
theorem boundaryAt_part {b : Bool} {u z : List Char} (hstart : b = false ∨ boundaryAt b (u ++ z) 0)
    (hend : z = [] ∨ boundaryAt (after b u) z 0) {k : ℕ} (hk : k ≤ u.length)
    (h : boundaryAt false u k) : boundaryAt b (u ++ z) k := by
  cases u with
  | nil =>
    obtain rfl := Nat.le_zero.mp hk
    exact absurd rfl h
  | cons c u =>
    cases k with
    | zero =>
      rcases hstart with rfl | hstart
      · exact h
      · exact hstart
    | succ k => exact boundaryAt_extend hend hk h

theorem here_extend {R : Regex} {b b' : Bool} {x y z : List Char}
    (hB : ∀ k ≤ (x ++ y).length, boundaryAt b' (x ++ y) k → boundaryAt b (x ++ (y ++ z)) k)
    (h : R.Here (after b' x) y) : R.Here (after b x) (y ++ z) := by
  obtain ⟨w, v, rfl, hne, hw⟩ := h
  refine ⟨w, v ++ z, List.append_assoc _ _ _, hne, hw.mono fun k hk hbound => ?_⟩
  rw [← boundaryAt_append] at hbound ⊢
  refine hB _ ?_ hbound
  simp only [List.length_append]
  omega

/-- A match at the end is a match. -/
theorem occurs_of_suffix {R : Regex} {b : Bool} {u t : List Char} (h : R.Occurs (after b u) t) :
    R.Occurs b (u ++ t) := by
  obtain ⟨x, y, rfl, hy⟩ := h
  exact ⟨u ++ x, y, (List.append_assoc _ _ _).symm, by rwa [after_append]⟩

/-- What matches in a part that begins and ends at boundaries, or at the ends of the text, matches
in the text. -/
theorem here_of_occurs {R : Regex} {b : Bool} {u z : List Char}
    (hbound : R.Unbounded ∨ (b = false ∨ boundaryAt b (u ++ z) 0) ∧
      (z = [] ∨ boundaryAt (after b u) z 0)) (h : R.Occurs false u) :
    ∃ x y, u = x ++ y ∧ y ≠ [] ∧ R.Here (after b x) (y ++ z) := by
  obtain ⟨x, y, rfl, hy⟩ := h
  refine ⟨x, y, rfl, ?_, ?_⟩
  · rintro rfl
    exact not_here_nil hy
  · rcases hbound with hfree | ⟨hstart, hend⟩
    · obtain ⟨w, v, rfl, hne, hw⟩ := hy
      exact ⟨w, v ++ z, List.append_assoc _ _ _, hne, hfree _ _ w hw⟩
    · refine here_extend (fun k hk hk' => ?_) hy
      rw [← List.append_assoc]
      exact boundaryAt_part hstart hend hk hk'

theorem boundaryAt_after {b : Bool} {u w v : List Char}
    (h : boundaryAt (after b u) (w ++ v) w.length) : boundaryAt (after b (u ++ w)) v 0 := by
  rw [after_append, ← boundaryAt_append]
  exact h

/-- **What matches in a part matches in the text**, if the text is parted at boundaries. -/
theorem occurs_of_part {r R : Regex} (hr : r.Bounded) {b : Bool} {t : List Char}
    {ps : List (List Char)} (h : r.Parted b t ps) (hstart : b = false ∨ boundaryAt b t 0)
    {p : List Char} (hp : p ∈ ps) (hocc : R.Occurs false p) : R.Occurs b t := by
  induction h with
  | last hu =>
    obtain rfl := List.mem_singleton.mp hp
    rw [← List.append_nil p] at hstart
    obtain ⟨x, y, rfl, -, hy⟩ := here_of_occurs (.inr ⟨hstart, .inl rfl⟩) hocc
    exact ⟨x, y, rfl, by rwa [List.append_nil] at hy⟩
  | @cons b u w v ps hu hw hv ih =>
    obtain ⟨hleft, hright⟩ := hr _ _ hw
    rcases List.mem_cons.mp hp with rfl | hp
    · obtain ⟨x, y, rfl, -, hy⟩ := here_of_occurs (.inr ⟨hstart, .inr hleft⟩) hocc
      exact ⟨x, y ++ (w ++ v), List.append_assoc _ _ _, hy⟩
    · rw [← List.append_assoc]
      exact occurs_of_suffix (ih (.inr (boundaryAt_after hright)) hp)

/-- **Nothing that matches is left.** -/
theorem not_occurs_of_part {r : Regex} (hr : r.Unbounded ∨ r.Bounded) {b : Bool} {t : List Char}
    {ps : List (List Char)} (h : r.Parted b t ps)
    (hstart : r.Unbounded ∨ b = false ∨ boundaryAt b t 0) {p : List Char} (hp : p ∈ ps) :
    ¬r.Occurs false p := by
  induction h with
  | @last b u hu =>
    obtain rfl := List.mem_singleton.mp hp
    intro hocc
    rw [← List.append_nil p] at hstart
    obtain ⟨x, y, rfl, hne, hy⟩ := here_of_occurs (hstart.imp_right fun h => ⟨h, .inl rfl⟩) hocc
    exact hu x y rfl hne hy
  | @cons b u w v ps hu hw hv ih =>
    have hright : r.Unbounded ∨ boundaryAt (after b (u ++ w)) v 0 :=
      hr.imp_right fun hr => boundaryAt_after (hr _ _ hw).2
    rcases List.mem_cons.mp hp with rfl | hp
    · intro hocc
      have hleft : r.Unbounded ∨ boundaryAt (after b p) (w ++ v) 0 :=
        hr.imp_right fun hr => (hr _ _ hw).1
      have hbound : r.Unbounded ∨ (b = false ∨ boundaryAt b (p ++ (w ++ v)) 0) ∧
          (w ++ v = [] ∨ boundaryAt (after b p) (w ++ v) 0) := by
        rcases hstart with hfree | hs
        · exact .inl hfree
        · exact hleft.imp_right fun hl => ⟨hs, .inr hl⟩
      obtain ⟨x, y, rfl, hne, hy⟩ := here_of_occurs hbound hocc
      exact hu x y rfl hne hy
    · exact ih (hright.imp_right .inr) hp

/-- **To replace creates nothing**, where all matches begin and end at boundaries. -/
theorem occurs_of_replaceAll {r R : Regex} {ph : List Char} (hr : r.Consuming) (hb : r.Bounded)
    (hR : R.Inert ph) {t : List Char} (h : R.Occurs false (r.replaceAll ph 0 false t)) :
    R.Occurs false t := by
  rw [← intercalate_parts, hR.occurs_intercalate (r.parts_ne_nil 0 false t)] at h
  obtain ⟨p, hp, hocc⟩ := h
  exact occurs_of_part hb (parted_parts hr false t) (.inl rfl) hp hocc

/-- **To replace leaves nothing.** -/
theorem not_occurs_replaceAll {r : Regex} {ph : List Char} (hr : r.Consuming)
    (hb : r.Unbounded ∨ r.Bounded) (hph : r.Inert ph) (t : List Char) :
    ¬r.Occurs false (r.replaceAll ph 0 false t) := by
  rw [← intercalate_parts, hph.occurs_intercalate (r.parts_ne_nil 0 false t)]
  rintro ⟨p, hp, hocc⟩
  exact not_occurs_of_part hb (parted_parts hr false t) (.inr (.inl rfl)) hp hocc

/-- Where nothing matches, nothing is replaced. -/
theorem replaceAll_of_countMatches {r : Regex} {by_ : List Char} {b : Bool} {t : List Char}
    (h : r.countMatches 0 b t = 0) : r.replaceAll by_ 0 b t = t := by
  induction t generalizing b with
  | nil => rfl
  | cons c t ih =>
    rw [countMatches] at h
    cases hn : r.matchLength b (c :: t) with
    | zero =>
      rw [hn] at h
      rw [replaceAll_cons_of_zero hn, ih h]
    | succ n =>
      rw [hn] at h
      cases h

/-! ## Expressions of a kind -/

omit [WordChars]

/-- `\b…\b` -/
def bounded (r : Regex) : Regex := .seq .boundary (.seq r .boundary)

theorem bounded_bounded (r : Regex) : r.bounded.Bounded := by
  rintro B w ⟨u, v, rfl, ⟨rfl, hstart⟩, x, y, rfl, -, rfl, hend⟩
  rw [List.nil_append, List.append_nil]
  rw [List.length_nil, Nat.zero_add, Nat.add_zero] at hend
  exact ⟨hstart, hend⟩

/-- An expression without boundaries. -/
def plain : Regex → Bool
  | .eps => true
  | .cls _ => true
  | .many _ => true
  | .boundary => false
  | .seq x y => x.plain && y.plain
  | .alt x y => x.plain && y.plain

theorem unbounded_of_plain {r : Regex} (hr : r.plain = true) : r.Unbounded := by
  intro B B' w h
  induction r generalizing B B' w with
  | eps => exact h
  | cls p => exact h
  | many p => exact h
  | boundary => cases hr
  | seq x y hx hy =>
    obtain ⟨hpx, hpy⟩ := Bool.and_eq_true_iff.mp hr
    obtain ⟨u, v, rfl, hu, hv⟩ := h
    exact ⟨u, v, rfl, hx hpx _ _ _ hu, hy hpy _ _ _ hv⟩
  | alt x y hx hy =>
    obtain ⟨hpx, hpy⟩ := Bool.and_eq_true_iff.mp hr
    exact h.imp (hx hpx _ _ _) (hy hpy _ _ _)

/-- Each match has a character like this. -/
def Needs (key : Char → Bool) (r : Regex) : Prop := ∀ B w, r.Matches B w → ∃ c ∈ w, key c = true

variable {key : Char → Bool}

theorem Needs.consuming {r : Regex} (h : r.Needs key) : r.Consuming := by
  rintro B w hw rfl
  obtain ⟨c, hc, -⟩ := h B _ hw
  exact List.not_mem_nil hc

theorem Needs.left {x : Regex} (h : x.Needs key) (y : Regex) : (seq x y).Needs key := by
  rintro B w ⟨u, v, rfl, hu, -⟩
  obtain ⟨c, hc, hkey⟩ := h B u hu
  exact ⟨c, List.mem_append_left v hc, hkey⟩

theorem Needs.right {y : Regex} (h : y.Needs key) (x : Regex) : (seq x y).Needs key := by
  rintro B w ⟨u, v, rfl, -, hv⟩
  obtain ⟨c, hc, hkey⟩ := h _ v hv
  exact ⟨c, List.mem_append_right u hc, hkey⟩

theorem Needs.alt {x y : Regex} (hx : x.Needs key) (hy : y.Needs key) : (alt x y).Needs key :=
  fun B w h => h.elim (hx B w) (hy B w)

theorem Needs.cls {p : Char → Bool} (h : ∀ c, p c = true → key c = true) : (cls p).Needs key := by
  rintro B w ⟨c, rfl, hc⟩
  exact ⟨c, List.mem_singleton_self c, h c hc⟩

theorem Needs.times {r : Regex} (h : r.Needs key) {m : ℕ} (hm : 0 < m) (n : ℕ) :
    (times r m n).Needs key := by
  cases m with
  | zero => exact absurd hm (lt_irrefl 0)
  | succ m => exact h.left _

theorem Needs.bounded {r : Regex} (h : r.Needs key) : r.bounded.Needs key := (h.left _).right _

variable [WordChars]

/-- Without such a character nothing matches. -/
theorem Needs.not_occurs {r : Regex} (h : r.Needs key) {b : Bool} {t : List Char}
    (ht : ∀ c ∈ t, key c = false) : ¬r.Occurs b t := by
  rintro ⟨u, v, rfl, w, v', rfl, -, hw⟩
  obtain ⟨c, hc, hkey⟩ := h _ w hw
  have hmem : c ∈ u ++ (w ++ v') := List.mem_append_right u (List.mem_append_left v' hc)
  rw [ht c hmem] at hkey
  cases hkey

end Regex
