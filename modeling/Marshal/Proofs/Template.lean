import Mathlib.Data.List.Infix
import Marshal.Code.Tokens

/-!
# Templates

Emitted code is printed around the path of the run-time library.  A `Template` is a printer that
uses the path in one way only: it puts a name below it.  All else that a template prints are words
of its own, and `Template W` has no other words of its own than those in `W`.

Two things follow for whatever is printed.

* If a word `p` is not printed around the path, then printing below `p` and replacing `p` is
  printing below what it is replaced by (`Template.replaceIn_eq`).
* A word that is not in `W` stands right below the path wherever it is printed
  (`Template.onlyBehind`).
-/

namespace Marshal

namespace Token

/-! ### Atoms -/

mutual

/-- The texts of the atoms of a token, those inside a group included. -/
def atoms : Token → List String
  | atom s => [s]
  | group _ ts => atomsIn ts

/-- The texts of the atoms of tokens, those inside groups included. -/
def atomsIn : List Token → List String
  | [] => []
  | t :: ts => t.atoms ++ atomsIn ts

end

@[simp] theorem atoms_atom (s : String) : (atom s).atoms = [s] := by rw [atoms]

@[simp] theorem atoms_group (d : Delimiter) (ts : List Token) :
    (group d ts).atoms = atomsIn ts := by rw [atoms]

@[simp] theorem atomsIn_nil : atomsIn [] = [] := by rw [atomsIn]

@[simp] theorem atomsIn_cons (t : Token) (ts : List Token) :
    atomsIn (t :: ts) = t.atoms ++ atomsIn ts := by rw [atomsIn]

@[simp] theorem atomsIn_append (ts us : List Token) :
    atomsIn (ts ++ us) = atomsIn ts ++ atomsIn us := by
  induction ts with
  | nil => simp
  | cons t ts ih => simp [ih]

@[simp] theorem atomsIn_words (ss : List String) : atomsIn (words ss) = ss := by
  induction ss with
  | nil => exact atomsIn_nil
  | cons s ss ih => simpa [words] using ih

theorem atoms_subset_of_mem {t : Token} {ts : List Token} (h : t ∈ ts) :
    t.atoms ⊆ atomsIn ts := by
  induction ts with
  | nil => cases h
  | cons u ts ih =>
    rw [atomsIn_cons]
    rcases List.mem_cons.1 h with rfl | h
    · exact List.subset_append_left _ _
    · exact List.Subset.trans (ih h) (List.subset_append_right _ _)

/-! ### Replacing -/

mutual

/-- The token with the tokens `q` in the place of the atom `p`, inside a group too. -/
def replace (p : String) (q : List Token) : Token → List Token
  | atom s => if s = p then q else [atom s]
  | group d ts => [group d (replaceIn p q ts)]

/-- The tokens with the tokens `q` in the place of every atom `p`, inside groups too. -/
def replaceIn (p : String) (q : List Token) : List Token → List Token
  | [] => []
  | t :: ts => t.replace p q ++ replaceIn p q ts

end

variable {p : String} {q : List Token}

theorem replaceIn_append (ts us : List Token) :
    replaceIn p q (ts ++ us) = replaceIn p q ts ++ replaceIn p q us := by
  induction ts with
  | nil => simp [replaceIn]
  | cons t ts ih => simp [replaceIn, ih]

mutual

theorem replace_of_notMem (t : Token) (h : p ∉ t.atoms) : t.replace p q = [t] := by
  match t with
  | atom s =>
    have hne : s ≠ p := fun hs => h (by simp [hs])
    rw [replace, if_neg hne]
  | group d ts => rw [replace, replaceIn_of_notMem ts (by simpa using h)]

theorem replaceIn_of_notMem (ts : List Token) (h : p ∉ atomsIn ts) : replaceIn p q ts = ts := by
  match ts with
  | [] => rw [replaceIn]
  | t :: ts =>
    rw [atomsIn_cons, List.mem_append, not_or] at h
    rw [replaceIn, replace_of_notMem t h.1, replaceIn_of_notMem ts h.2, List.singleton_append]

end

/-! ### What stands before an atom -/

/-- The first tokens are the second, or what a group in them encloses. -/
inductive Within : List Token → List Token → Prop where
  | refl (ts : List Token) : Within ts ts
  | enclosed {l inner ts : List Token} {d : Delimiter} (hmem : group d inner ∈ ts)
      (h : Within l inner) : Within l ts

theorem Within.atomsIn_subset {l ts : List Token} (h : Within l ts) : atomsIn l ⊆ atomsIn ts := by
  induction h with
  | refl => exact List.Subset.refl _
  | enclosed hmem _ ih =>
    refine List.Subset.trans ih ?_
    simpa using atoms_subset_of_mem hmem

/-- Wherever the atom `x` occurs, inside groups too, the tokens `lead` stand right before it. -/
def OnlyBehind (lead : List Token) (x : String) (ts : List Token) : Prop :=
  ∀ l, Within l ts → ∀ before after, l = before ++ atom x :: after → lead <:+ before

variable {lead : List Token} {x : String}

theorem onlyBehind_of_notMem {ts : List Token} (h : x ∉ atomsIn ts) : OnlyBehind lead x ts := by
  rintro l hl before after rfl
  exact absurd (hl.atomsIn_subset (by simp)) h

theorem OnlyBehind.enclosed {inner : List Token} (h : OnlyBehind lead x inner) (d : Delimiter) :
    OnlyBehind lead x [group d inner] := by
  intro l hl before after heq
  cases hl with
  | refl =>
    -- the group itself is no atom
    have hmem : atom x ∈ [group d inner] := heq ▸ by simp
    simp at hmem
  | enclosed hmem hl =>
    cases List.mem_singleton.1 hmem
    exact h l hl before after heq

theorem OnlyBehind.append {ts us : List Token} (ht : OnlyBehind lead x ts)
    (hu : OnlyBehind lead x us) : OnlyBehind lead x (ts ++ us) := by
  intro l hl before after heq
  cases hl with
  | refl =>
    rcases List.append_eq_append_iff.1 heq with ⟨mid, rfl, hus⟩ | ⟨mid, rfl, hus⟩
    · exact (hu us (.refl us) mid after hus).trans (List.suffix_append ts mid)
    · cases mid with
      | nil => exact (hu us (.refl us) [] after hus.symm).trans List.nil_suffix
      | cons t mid =>
        obtain ⟨rfl, -⟩ := List.cons.inj hus
        exact ht _ (.refl _) before mid rfl
  | enclosed hmem hl =>
    rcases List.mem_append.1 hmem with hmem | hmem
    · exact ht l (.enclosed hmem hl) before after heq
    · exact hu l (.enclosed hmem hl) before after heq

theorem onlyBehind_below {path : List Token} (hpath : x ∉ atomsIn path) (hx : x ≠ "::")
    (s : String) : OnlyBehind (path ++ [atom "::"]) x (path ++ [atom "::", atom s]) := by
  have hlead : x ∉ atomsIn (path ++ [atom "::"]) := by simp [hpath, hx]
  intro l hl before after heq
  cases hl with
  | refl =>
    rw [List.append_cons] at heq
    rcases List.append_eq_append_iff.1 heq with ⟨mid, rfl, hmid⟩ | ⟨mid, hmid, hlast⟩
    · obtain rfl : mid = [] := by
        have hlen := congrArg List.length hmid
        simp only [List.length_append, List.length_cons, List.length_nil] at hlen
        exact List.length_eq_zero_iff.1 (by omega)
      rw [List.append_nil]
    · cases mid with
      | nil => exact ⟨[], by simpa using hmid⟩
      | cons t mid =>
        obtain ⟨rfl, -⟩ := List.cons.inj hlast
        exact absurd (by simp [hmid]) hlead
  | enclosed hmem hl =>
    have henclosed : Within l path := .enclosed (by simpa using hmem) hl
    exact onlyBehind_of_notMem hpath l henclosed before after heq

end Token

open Token

/-! ### Templates -/

/-- All atoms of the tokens are among the words. -/
def Plain (W : String → Prop) (ts : List Token) : Prop := ∀ s ∈ atomsIn ts, W s

section Plain

variable {W : String → Prop} {ts us : List Token}

@[simp] theorem plain_nil : Plain W [] := by simp [Plain]

@[simp] theorem plain_append : Plain W (ts ++ us) ↔ Plain W ts ∧ Plain W us := by
  simp [Plain, or_imp, forall_and]

@[simp] theorem plain_atom {s : String} : Plain W (atom s :: ts) ↔ W s ∧ Plain W ts := by
  simp [Plain]

@[simp] theorem plain_group {d : Delimiter} :
    Plain W (group d ts :: us) ↔ Plain W ts ∧ Plain W us := by
  simp [Plain, or_imp, forall_and]

@[simp] theorem plain_words {ss : List String} : Plain W (words ss) ↔ ∀ s ∈ ss, W s := by
  simp [Plain]

@[simp] theorem plain_flatMap {α : Type} {f : α → List Token} {as : List α} :
    Plain W (as.flatMap f) ↔ ∀ a ∈ as, Plain W (f a) := by
  induction as with
  | nil => simp
  | cons a as ih => simp [ih]

@[simp] theorem plain_absolute {ss : List String} (hcolons : W "::") :
    Plain W (absolute ss) ↔ ∀ s ∈ ss, W s := by
  induction ss with
  | nil => simp [absolute]
  | cons s ss ih =>
    have hcons : absolute (s :: ss) = atom "::" :: atom s :: absolute ss := rfl
    simp [hcons, ih, hcolons]

end Plain

/-- The printer puts names below the path that it is given, and prints nothing else but the given
words. -/
inductive Template (W : String → Prop) : (List Token → List Token) → Prop where
  /-- Words of the printer's own. -/
  | own {ts : List Token} (h : Plain W ts) : Template W fun _ => ts
  /-- A name below the path. -/
  | name (s : String) : Template W fun path => path ++ [atom "::", atom s]
  | enclosed {t : List Token → List Token} (d : Delimiter) (h : Template W t) :
      Template W fun path => [group d (t path)]
  | append {t u : List Token → List Token} (ht : Template W t) (hu : Template W u) :
      Template W fun path => t path ++ u path

namespace Template

variable {W : String → Prop} {t u : List Token → List Token}

/-- Where `p` is not printed around the path, all atoms `p` come from the path. -/
theorem replaceIn_eq (h : Template W t) {p : String} (hp : p ∉ atomsIn (t [])) (q : List Token) :
    replaceIn p q (t [atom p]) = t q := by
  induction h with
  | own => exact replaceIn_of_notMem _ hp
  | name s =>
    have hself : replaceIn p q [atom p] = q := by simp [replaceIn, replace]
    rw [replaceIn_append, hself, replaceIn_of_notMem [atom "::", atom s] hp]
  | enclosed d _ ih =>
    rw [replaceIn, replace, ih (by simpa using hp)]
    rfl
  | append _ _ iht ihu =>
    rw [atomsIn_append, List.mem_append, not_or] at hp
    rw [replaceIn_append, iht hp.1, ihu hp.2]

/-- A word that the printer does not have of its own is printed as a name below the path. -/
theorem onlyBehind (h : Template W t) {x : String} (hx : ¬ W x) (hcolons : W "::")
    {path : List Token} (hpath : x ∉ atomsIn path) :
    OnlyBehind (path ++ [atom "::"]) x (t path) := by
  induction h with
  | own hplain => exact onlyBehind_of_notMem fun hmem => hx (hplain x hmem)
  | name s => exact onlyBehind_below hpath (fun heq => hx (heq ▸ hcolons)) s
  | enclosed d _ ih => exact ih.enclosed d
  | append _ _ iht ihu => exact iht.append ihu

/-! ### Printers made of others -/

theorem cons {s : String} (hs : W s) (h : Template W t) :
    Template W fun path => atom s :: t path :=
  append (t := fun _ => [atom s]) (own (by simpa using hs)) h

theorem group_cons (d : Delimiter) (ht : Template W t) (hu : Template W u) :
    Template W fun path => group d (t path) :: u path :=
  (enclosed d ht).append hu

theorem names (hcolons : W "::") (s : String) {ss : List String} (hss : ∀ s ∈ ss, W s) :
    Template W fun path => Marshal.below path (s :: ss) := by
  have heq : (fun path => Marshal.below path (s :: ss)) =
      fun path => (path ++ [atom "::", atom s]) ++ absolute ss := by
    funext path
    simp [Marshal.below, absolute, words]
  rw [heq]
  exact (name s).append (own ((plain_absolute hcolons).2 hss))

theorem flatMap {α : Type} {f : List Token → α → List Token} {as : List α}
    (h : ∀ a ∈ as, Template W fun path => f path a) :
    Template W fun path => as.flatMap (f path) := by
  induction as with
  | nil => exact own plain_nil
  | cons a as ih =>
    simp only [List.flatMap_cons]
    exact (h a List.mem_cons_self).append (ih fun b hb => h b (List.mem_cons_of_mem a hb))

end Template

/-- The printer prints a list of sequences, each by a template. -/
inductive Templates (W : String → Prop) : (List Token → List (List Token)) → Prop where
  | own {cs : List (List Token)} (h : ∀ c ∈ cs, Plain W c) : Templates W fun _ => cs
  | cons {t : List Token → List Token} {ts : List Token → List (List Token)} (ht : Template W t)
      (hts : Templates W ts) : Templates W fun path => t path :: ts path

namespace Templates

variable {W : String → Prop} {ts : List Token → List (List Token)}

theorem map_replaceIn (h : Templates W ts) {p : String} (hp : ∀ c ∈ ts [], p ∉ atomsIn c)
    (q : List Token) : (ts [atom p]).map (replaceIn p q) = ts q := by
  induction h with
  | own =>
    rw [List.map_congr_left fun c hc => replaceIn_of_notMem c (hp c hc), List.map_id']
  | cons ht _ ih =>
    rw [List.map_cons, ht.replaceIn_eq (hp _ List.mem_cons_self),
      ih fun c hc => hp c (List.mem_cons_of_mem _ hc)]

theorem onlyBehind (h : Templates W ts) {x : String} (hx : ¬ W x) (hcolons : W "::")
    {path : List Token} (hpath : x ∉ atomsIn path) {c : List Token} (hc : c ∈ ts path) :
    OnlyBehind (path ++ [atom "::"]) x c := by
  induction h with
  | own hplain => exact onlyBehind_of_notMem fun hmem => hx (hplain c hc x hmem)
  | cons ht _ ih =>
    rcases List.mem_cons.1 hc with rfl | hc
    · exact ht.onlyBehind hx hcolons hpath
    · exact ih hc

end Templates

end Marshal
