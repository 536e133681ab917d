import Mathlib.Data.List.Basic
import Mathlib.Data.Nat.Notation
import Mathlib.Tactic.Common

/-!
File paths as byte strings, and their lexical cleaning.

A cleaned path is rooted or not, climbs a number of times, and then names plain components: neither empty, nor "." or
"..", nor with a slash inside.  `clean` reads a string as such a path, one component after the other, and `render`
writes one; `clean` is a left inverse of `render`, so a rendered path is determined by what it names.
-/

namespace MmkvGo.Lib.LexPath

/-- '/' -/
def slash : UInt8 := 47

/-- '.' -/
def dot : UInt8 := 46

/-- A component that names an entry of a directory. -/
def Plain (c : List UInt8) : Prop := slash ∉ c ∧ c ≠ [] ∧ c ≠ [dot] ∧ c ≠ [dot, dot]

instance (c : List UInt8) : Decidable (Plain c) := by unfold Plain; infer_instance

/-- A cleaned path. -/
@[ext] structure Path where
  rooted : Bool
  /-- How often the path climbs before it names anything. -/
  ups : ℕ
  parts : List (List UInt8)
  ups_of_rooted : rooted = true → ups = 0
  plain : ∀ c ∈ parts, Plain c
  deriving DecidableEq

/-! ### Reading and writing paths -/

namespace Path

/-- The path with no component. -/
def start (rooted : Bool) : Path := ⟨rooted, 0, [], fun _ => rfl, by simp⟩

/-- The entry `c` of the path. -/
def child (p : Path) (c : List UInt8) (hc : Plain c) : Path where
  rooted := p.rooted
  ups := p.ups
  parts := p.parts ++ [c]
  ups_of_rooted := p.ups_of_rooted
  plain := by
    intro c' hc'
    rcases List.mem_append.1 hc' with h | h
    · exact p.plain c' h
    · exact List.mem_singleton.1 h ▸ hc

/-- One level up: the last name goes; a rooted path without names stays, another one climbs. -/
def parent (p : Path) : Path where
  rooted := p.rooted
  ups := if p.parts = [] ∧ p.rooted = false then p.ups + 1 else p.ups
  parts := p.parts.dropLast
  ups_of_rooted := by
    intro h
    simp [h, p.ups_of_rooted h]
  plain c hc := p.plain c (List.dropLast_subset _ hc)

/-- One component of a string. -/
def push (p : Path) (c : List UInt8) : Path :=
  if h : Plain c then p.child c h else if c = [dot, dot] then p.parent else p

/-- The components of a path as a string has them. -/
def comps (p : Path) : List (List UInt8) := List.replicate p.ups [dot, dot] ++ p.parts

/-- The path as a string; "." when there is nothing to write. -/
def render (p : Path) : List UInt8 :=
  if p.rooted then slash :: [slash].intercalate p.comps
  else if p.comps = [] then [dot]
  else [slash].intercalate p.comps

end Path

/-- **Lexical cleaning.** -/
def clean (s : List UInt8) : Path :=
  (s.splitOn slash).foldl Path.push (.start (s.head? == some slash))

/-- Two paths joined by a slash and cleaned; empty ones are left out. -/
def join (a b : List UInt8) : List UInt8 :=
  if a = [] then if b = [] then [] else (clean b).render
  else (clean (a ++ slash :: b)).render

/-- `q` is an entry of the tree below `p`. -/
def Below (p q : Path) : Prop :=
  q.rooted = p.rooted ∧ q.ups = p.ups ∧ ∃ ext, ext ≠ [] ∧ q.parts = p.parts ++ ext

/-- The first `n` names of the path. -/
def Path.upTo (p : Path) (n : ℕ) : Path where
  rooted := p.rooted
  ups := p.ups
  parts := p.parts.take n
  ups_of_rooted := p.ups_of_rooted
  plain c hc := p.plain c (List.mem_of_mem_take hc)

/-- The directories that the path is in. -/
def Path.above (p : Path) : List Path := (List.range p.parts.length).map p.upTo

lemma mem_above {p q : Path} : p ∈ q.above ↔ Below p q := by
  simp only [Path.above, List.mem_map, List.mem_range]
  constructor
  · rintro ⟨n, hn, rfl⟩
    refine ⟨rfl, rfl, q.parts.drop n, ?_, (List.take_append_drop n q.parts).symm⟩
    simpa using hn
  · rintro ⟨hr, hu, ext, hne, hparts⟩
    refine ⟨p.parts.length, ?_, ?_⟩
    · rw [hparts, List.length_append]
      have := List.length_pos_of_ne_nil hne
      omega
    · ext1
      · exact hr
      · exact hu
      · change q.parts.take p.parts.length = p.parts
        rw [hparts, List.take_left]

/-! ### One component -/

section Push

variable {p : Path} {c : List UInt8}

lemma push_plain (hc : Plain c) : p.push c = p.child c hc := dif_pos hc

@[simp] lemma push_nil : p.push [] = p := by simp [Path.push, Plain]

@[simp] lemma push_dot : p.push [dot] = p := by simp [Path.push, Plain]

lemma push_up : p.push [dot, dot] = p.parent := by simp [Path.push, Plain]

lemma not_below_self : ¬ Below p p := by
  rintro ⟨-, -, ext, hne, h⟩
  exact hne (List.self_eq_append_right.1 h)

lemma not_below_parent : ¬ Below p p.parent := by
  rintro ⟨-, -, ext, hne, h⟩
  have hlen : p.parts.dropLast.length = p.parts.length + ext.length := by
    rw [← List.length_append, ← h]
    rfl
  have hpos : 0 < ext.length := List.length_pos_of_ne_nil hne
  rw [List.length_dropLast] at hlen
  omega

lemma below_child (hc : Plain c) : Below p (p.child c hc) := ⟨rfl, rfl, [c], by simp, rfl⟩

lemma Below.child {q : Path} (h : Below p q) (hc : Plain c) : Below p (q.child c hc) := by
  obtain ⟨hr, hu, ext, hne, hparts⟩ := h
  exact ⟨hr, hu, ext ++ [c], by simp, by simp [Path.child, hparts]⟩

lemma Below.asymm {q : Path} (h : Below p q) : ¬ Below q p := by
  obtain ⟨-, -, ext, hne, hparts⟩ := h
  rintro ⟨-, -, ext', hne', hparts'⟩
  have hlen := congrArg List.length hparts
  have hlen' := congrArg List.length hparts'
  have hpos := List.length_pos_of_ne_nil hne
  rw [List.length_append] at hlen hlen'
  omega

lemma below_child_iff {q : Path} (hc : Plain c) : Below q (p.child c hc) ↔ q = p ∨ Below q p := by
  constructor
  · rintro ⟨hr, hu, ext, hne, hparts⟩
    obtain ⟨init, last, rfl⟩ := (List.eq_nil_or_concat' ext).resolve_left hne
    have hsplit : p.parts = q.parts ++ init := by
      have happ : p.parts ++ [c] = (q.parts ++ init) ++ [last] := by
        rw [List.append_assoc]
        exact hparts
      exact (List.append_inj' happ rfl).1
    cases init with
    | nil => exact .inl (Path.ext hr.symm hu.symm (by simpa using hsplit.symm))
    | cons d ds => exact .inr ⟨hr, hu, d :: ds, by simp, hsplit⟩
  · rintro (rfl | h)
    · exact below_child hc
    · exact h.child hc

lemma child_inj {q : Path} {c' : List UInt8} {hc : Plain c} {hc' : Plain c'} (h : p.child c hc = q.child c' hc') :
    p.parts = q.parts ∧ c = c' := by
  have hparts : p.parts ++ [c] = q.parts ++ [c'] := congrArg Path.parts h
  simpa using List.append_inj' hparts rfl

end Push

/-! ### Cleaning what was rendered -/

section Clean

variable {p : Path}

lemma slash_not_mem_comps (p : Path) : ∀ c ∈ p.comps, slash ∉ c := by
  intro c hc
  rcases List.mem_append.1 hc with h | h
  · rw [List.eq_of_mem_replicate h]
    decide
  · exact (p.plain c h).1

lemma foldl_push_ups (n k : ℕ) (hp : false = true → k = 0) :
    (List.replicate n [dot, dot]).foldl Path.push ⟨false, k, [], hp, by simp⟩ =
      ⟨false, k + n, [], by simp, by simp⟩ := by
  induction n generalizing k with
  | zero => rfl
  | succ n ih =>
    rw [List.replicate_succ, List.foldl_cons, push_up]
    simp only [Path.parent, and_self, if_true, List.dropLast_nil]
    rw [ih (k + 1) (by simp)]
    ext1 <;> simp
    omega

lemma foldl_push_plain {cs : List (List UInt8)} (hcs : ∀ c ∈ cs, Plain c) (p : Path) :
    cs.foldl Path.push p =
      ⟨p.rooted, p.ups, p.parts ++ cs, p.ups_of_rooted,
        fun c hc => (List.mem_append.1 hc).elim (p.plain c) (hcs c)⟩ := by
  induction cs generalizing p with
  | nil => ext1 <;> simp
  | cons c cs ih =>
    rw [List.foldl_cons, push_plain (hcs c (by simp)), ih fun c' hc' => hcs c' (by simp [hc'])]
    ext1 <;> simp [Path.child]

lemma foldl_push_comps (p : Path) : p.comps.foldl Path.push (.start p.rooted) = p := by
  obtain ⟨rooted, ups, parts, hups, hplain⟩ := p
  rw [Path.comps, List.foldl_append, foldl_push_plain hplain]
  cases rooted with
  | true =>
    have hzero : ups = 0 := hups rfl
    subst hzero
    rfl
  | false =>
    have hclimb := foldl_push_ups ups 0 (fun _ => rfl)
    ext1 <;> simp [Path.start, hclimb]

lemma foldl_splitOn_intercalate (p q : Path) :
    (([slash].intercalate p.comps).splitOn slash).foldl Path.push q = p.comps.foldl Path.push q := by
  by_cases hnil : p.comps = []
  · rw [hnil, List.intercalate_nil, List.splitOn_nil]
    exact push_nil
  · rw [List.splitOn_intercalate slash (slash_not_mem_comps p) hnil]

lemma head_ne_slash (p : Path) : ([slash].intercalate p.comps).head? ≠ some slash := by
  have hne : ∀ c ∈ p.comps, c ≠ [] := by
    intro c hc
    rcases List.mem_append.1 hc with h | h
    · rw [List.eq_of_mem_replicate h]
      decide
    · exact (p.plain c h).2.1
  have hslash := slash_not_mem_comps p
  cases hcs : p.comps with
  | nil => simp
  | cons c cs =>
    rw [hcs] at hne hslash
    obtain ⟨b, c', rfl⟩ := List.exists_cons_of_ne_nil (hne c (by simp))
    have hb : b ≠ slash := fun h => hslash (b :: c') (by simp) (by simp [h])
    cases cs with
    | nil => simpa [List.intercalate_singleton] using hb
    | cons d ds => simpa [List.intercalate_cons_cons] using hb

theorem clean_render (p : Path) : clean p.render = p := by
  unfold Path.render
  split
  · rename_i hrooted
    have hsplit : (slash :: [slash].intercalate p.comps).splitOn slash
        = [] :: ([slash].intercalate p.comps).splitOn slash :=
      List.splitOn_append_cons_self [] _
    rw [clean, hsplit, List.foldl_cons, push_nil, foldl_splitOn_intercalate]
    simpa [hrooted] using foldl_push_comps p
  · rename_i hrooted
    rw [Bool.not_eq_true] at hrooted
    have hp := foldl_push_comps p
    split
    · rename_i hnil
      rw [hnil, hrooted] at hp
      exact hp
    · rw [clean, foldl_splitOn_intercalate, beq_false_of_ne (head_ne_slash p), ← hrooted, hp]

/-- **Joining**: the components of the second path, which is not rooted, after the first. -/
theorem clean_join (a : List UInt8) {b : List UInt8} (hb : b.head? ≠ some slash) :
    clean (join a b) = (b.splitOn slash).foldl Path.push (clean a) := by
  unfold join
  split
  · rename_i ha
    subst ha
    have hstart : clean [] = .start false := push_nil
    rw [hstart]
    split
    · rename_i hb
      subst hb
      exact hstart.trans push_nil.symm
    · rw [clean_render, clean, beq_false_of_ne hb]
  · rename_i ha
    obtain ⟨x, a, rfl⟩ := List.exists_cons_of_ne_nil ha
    rw [clean_render, clean, List.splitOn_append_cons_self, List.foldl_append]
    rfl

lemma splitOn_plain {c : List UInt8} (hc : Plain c) : c.splitOn slash = [c] := by
  have hsplit : ([slash].intercalate [c]).splitOn slash = [c] :=
    List.splitOn_intercalate slash (by simpa using hc.1) (by simp)
  rwa [List.intercalate_singleton] at hsplit

lemma head_ne_slash_of_plain {c : List UInt8} (hc : Plain c) : c.head? ≠ some slash :=
  fun h => hc.1 (List.mem_of_mem_head? h)

theorem join_plain {a b : List UInt8} (ha : Plain a) (hb : Plain b) : join a b = a ++ slash :: b := by
  have hclean : clean a = (Path.start false).child a ha := by
    rw [clean, splitOn_plain ha, beq_false_of_ne (head_ne_slash_of_plain ha)]
    exact push_plain ha
  have hjoin : clean (a ++ slash :: b) = ((Path.start false).child a ha).child b hb := by
    have h := clean_join a (head_ne_slash_of_plain hb)
    rwa [join, if_neg ha.2.1, clean_render, splitOn_plain hb, hclean, List.foldl_cons, push_plain hb] at h
  rw [join, if_neg ha.2.1, hjoin]
  simp [Path.render, Path.comps, Path.child, Path.start, List.intercalate_cons_cons]

/-- A joined path is a cleaned one, unless both parts are empty. -/
lemma join_eq_render {a b : List UInt8} (hb : b ≠ []) : join a b = (clean (join a b)).render := by
  unfold join
  rw [if_neg hb]
  split <;> rw [clean_render]

end Clean

/-! ### A suffix of the last name -/

section Suffix

variable {p : Path} {c suf : List UInt8}

lemma intercalate_append_suffix (sep : List UInt8) (cs : List (List UInt8)) (c suf : List UInt8) :
    sep.intercalate (cs ++ [c]) ++ suf = sep.intercalate (cs ++ [c ++ suf]) := by
  induction cs with
  | nil => simp
  | cons d ds ih =>
    rw [List.cons_append, List.cons_append, List.intercalate_cons_of_ne_nil (by simp),
      List.intercalate_cons_of_ne_nil (by simp), List.append_assoc, ih]

theorem render_child_append (hc : Plain c) (hcs : Plain (c ++ suf)) :
    (p.child c hc).render ++ suf = (p.child (c ++ suf) hcs).render := by
  have hcomps : ∀ (c : List UInt8) (hc : Plain c), (p.child c hc).comps = p.comps ++ [c] := by
    intro c hc
    simp [Path.comps, Path.child]
  unfold Path.render
  rw [hcomps c hc, hcomps _ hcs]
  have hrooted : (p.child c hc).rooted = (p.child (c ++ suf) hcs).rooted := rfl
  rw [hrooted]
  split
  · rw [List.cons_append, intercalate_append_suffix]
  · rw [if_neg (by simp), if_neg (by simp), intercalate_append_suffix]

end Suffix

end MmkvGo.Lib.LexPath
