import Mathlib.Logic.Function.Basic
import RaptorCommon.CText
import RaptorCommon.LineText

/-!
# Processes making the same directories

`rss_mkdir_p` walks a path and makes each directory on the way. An existing one
is no failure, so any number of processes may make overlapping chains at once:
none fails because of another, and a path it returned for leads somewhere.
-/

set_option autoImplicit false

namespace RaptorCommon.MakeDirs
open RaptorCommon.CText RaptorCommon.LineText

section Trees

inductive Kind where
  | dir
  | other
  deriving DecidableEq

abbrev Names := List Bytes

abbrev Tree := Names → Option Kind

abbrev slash : Byte := 47

abbrev dot : Bytes := [46]

abbrev dotdot : Bytes := [46, 46]

/-- The names of a path; slashes in a row count as one. -/
def names (path : Bytes) : Names := (parts slash path).filter (fun name => name ≠ [])

def follow (d : Names) (name : Bytes) : Names :=
  if name = dot then d else if name = dotdot then d.dropLast else d ++ [name]

def enter (tree : Tree) (d : Names) (name : Bytes) : Option Names :=
  if name = dot ∨ name = dotdot ∨ tree (d ++ [name]) = some .dir then some (follow d name)
  else none

def walk (tree : Tree) : Names → Names → Option Names
  | [], d => some d
  | name::rest, d => (enter tree d name).bind (walk tree rest)

inductive MkdirAnswer where
  | made
  | present
  | failed
  deriving DecidableEq

def mkdirAt (tree : Tree) (d : Names) (name : Bytes) : MkdirAnswer × Tree :=
  if name = dot ∨ name = dotdot then (.present, tree)
  else match tree (d ++ [name]) with
    | some _ => (.present, tree)
    | none => (.made, Function.update tree (d ++ [name]) (some .dir))

/-- `mkdir` of the system, where nothing but the tree decides. -/
def mkdir (tree : Tree) (origin : Names) (path : Bytes) : MkdirAnswer × Tree :=
  match (names path).getLast? with
  | none => (.present, tree)
  | some name =>
    match walk tree (names path).dropLast origin with
    | none => (.failed, tree)
    | some d => mkdirAt tree d name

structure Grows (tree tree' : Tree) : Prop where
  kept : ∀ n k, tree n = some k → tree' n = some k
  made : ∀ n, tree' n = some .other → tree n = some .other

theorem grows_refl (tree : Tree) : Grows tree tree := ⟨fun _ _ h => h, fun _ h => h⟩

theorem Grows.trans {t t' t'' : Tree} (h : Grows t t') (h' : Grows t' t'') : Grows t t'' :=
  ⟨fun n k hk => h'.kept n k (h.kept n k hk), fun n hn => h.made n (h'.made n hn)⟩

theorem grows_made {tree : Tree} {n : Names} (h : tree n = none) :
    Grows tree (Function.update tree n (some .dir)) := by
  constructor
  · intro m k hk
    have hne : m ≠ n := by
      rintro rfl
      rw [h] at hk
      cases hk
    rwa [Function.update_of_ne hne]
  · intro m hm
    by_cases hmn : m = n
    · rw [hmn, Function.update_self] at hm
      cases hm
    · rwa [Function.update_of_ne hmn] at hm

theorem enter_follow {tree : Tree} {d e : Names} {name : Bytes} (h : enter tree d name = some e) :
    e = follow d name := by
  unfold enter at h
  split at h
  next => exact (Option.some.inj h).symm
  next => cases h

theorem enter_grows {tree tree' : Tree} (hg : Grows tree tree') {d e : Names} {name : Bytes}
    (h : enter tree d name = some e) : enter tree' d name = some e := by
  unfold enter at h ⊢
  split at h
  next hc =>
    rw [if_pos (hc.imp_right fun h => h.imp_right (hg.kept _ _))]
    exact h
  next => cases h

theorem walk_grows {tree tree' : Tree} (hg : Grows tree tree') {ns d e : Names}
    (h : walk tree ns d = some e) : walk tree' ns d = some e := by
  induction ns generalizing d with
  | nil => exact h
  | cons name ns ih =>
    obtain ⟨f, hf, hrest⟩ := Option.bind_eq_some_iff.mp h
    rw [walk, enter_grows hg hf, Option.bind_some]
    exact ih hrest

theorem walk_follow {tree : Tree} {ns d e : Names} (h : walk tree ns d = some e) :
    e = ns.foldl follow d := by
  induction ns generalizing d with
  | nil => exact (Option.some.inj h).symm
  | cons name ns ih =>
    obtain ⟨f, hf, hrest⟩ := Option.bind_eq_some_iff.mp h
    rw [List.foldl_cons, ← enter_follow hf]
    exact ih hrest

theorem walk_snoc (tree : Tree) (ns d : Names) (name : Bytes) :
    walk tree (ns ++ [name]) d = (walk tree ns d).bind fun e => enter tree e name := by
  induction ns generalizing d with
  | nil =>
    show (enter tree d name).bind (walk tree []) = enter tree d name
    cases enter tree d name <;> rfl
  | cons m ns ih =>
    show (enter tree d m).bind (walk tree (ns ++ [name])) = _
    cases hm : enter tree d m with
    | none => rw [walk, hm]; rfl
    | some e => rw [Option.bind_some, ih, walk, hm]; rfl

end Trees

section Paths

theorem names_slash (q x : Bytes) : names (q ++ slash::x) = names q ++ names x := by
  have hparts : parts slash (q ++ slash::x) = parts slash q ++ parts slash x := by
    rw [parts, List.append_assoc, List.cons_append, pieces_end]
    rfl
  rw [names, hparts, List.filter_append]
  rfl

theorem names_single {name : Bytes} (h : slash ∉ name) :
    names name = if name = [] then [] else [name] := by
  rw [names, parts_single h]
  by_cases hn : name = [] <;> simp [hn]

def Cut (front : Bytes) : Prop := front = [] ∨ ∃ q, front = q ++ [slash]

theorem names_cut {front : Bytes} (h : Cut front) (x : Bytes) :
    names (front ++ x) = names front ++ names x := by
  rcases h with rfl | ⟨q, rfl⟩
  · rfl
  · have hnil : names [] = [] := rfl
    rw [List.append_assoc, List.singleton_append, names_slash, names_slash q [], hnil,
      List.append_nil]

theorem mkdir_leads {tree : Tree} {origin d : Names} {front name : Bytes} (hcut : Cut front)
    (hname : slash ∉ name) (hwalk : walk tree (names front) origin = some d)
    (hclear : name ≠ [] → tree (follow d name) ≠ some .other) :
    (mkdir tree origin (front ++ name)).1 ≠ .failed ∧
      Grows tree (mkdir tree origin (front ++ name)).2 ∧
      ∃ e, walk (mkdir tree origin (front ++ name)).2 (names (front ++ name)) origin = some e := by
  rw [mkdir, names_cut hcut, names_single hname]
  by_cases hn : name = []
  · rw [if_pos hn, List.append_nil]
    rcases List.eq_nil_or_concat (names front) with hnil | ⟨init, last, hlast⟩
    · rw [hnil] at hwalk ⊢
      exact ⟨nofun, grows_refl tree, d, hwalk⟩
    · rw [hlast, List.concat_eq_append] at hwalk ⊢
      have hsnoc := hwalk
      rw [walk_snoc] at hsnoc
      obtain ⟨e, he, henter⟩ := Option.bind_eq_some_iff.mp hsnoc
      have hat : mkdirAt tree e last = (.present, tree) := by
        unfold enter at henter
        unfold mkdirAt
        split at henter
        next hc =>
          by_cases hdots : last = dot ∨ last = dotdot
          · rw [if_pos hdots]
          · have hdir : tree (e ++ [last]) = some .dir :=
              (or_assoc.mpr hc).resolve_left hdots
            rw [if_neg hdots, hdir]
        next => cases henter
      rw [List.getLast?_append_of_ne_nil _ (List.cons_ne_nil _ _), List.getLast?_singleton,
        List.dropLast_concat]
      simp only [he, hat]
      exact ⟨nofun, grows_refl tree, d, hwalk⟩
  · rw [if_neg hn, List.getLast?_append_of_ne_nil _ (List.cons_ne_nil _ _),
      List.getLast?_singleton, List.dropLast_concat]
    simp only [hwalk, walk_snoc]
    by_cases hdots : name = dot ∨ name = dotdot
    · have henter : enter tree d name = some (follow d name) :=
        if_pos (hdots.imp_right Or.inl)
      rw [mkdirAt, if_pos hdots]
      exact ⟨nofun, grows_refl tree, follow d name, by rw [hwalk]; exact henter⟩
    · obtain ⟨hdot, hdotdot⟩ := not_or.mp hdots
      have hfollow : follow d name = d ++ [name] := by
        rw [follow, if_neg hdot, if_neg hdotdot]
      have hother := hfollow ▸ hclear hn
      rw [mkdirAt, if_neg hdots]
      cases ht : tree (d ++ [name]) with
      | none =>
        have hgrows := grows_made ht
        have henter : enter (Function.update tree (d ++ [name]) (some .dir)) d name =
            some (follow d name) :=
          if_pos (.inr (.inr (Function.update_self ..)))
        exact ⟨nofun, hgrows, follow d name, by rw [walk_grows hgrows hwalk]; exact henter⟩
      | some k =>
        cases k with
        | dir =>
          have henter : enter tree d name = some (follow d name) := if_pos (.inr (.inr ht))
          exact ⟨nofun, grows_refl tree, follow d name, by rw [hwalk]; exact henter⟩
        | other => exact absurd ht hother

end Paths

section Makers

/-- A call of `rss_mkdir_p` under way at an offset of its path, or returned. -/
structure Maker where
  cur : ℕ
  ret : Option ℤ

def origin (cwd : Names) (path : Bytes) : Names := if path.head? = some slash then [] else cwd

def mkdirCall (cwd : Names) (path : Bytes) (refused : Bool) (tree : Tree) : MkdirAnswer × Tree :=
  if refused then (.failed, tree) else mkdir tree (origin cwd path) path

def makerStart (path : Bytes) : Maker := ⟨1, if path = [] then some (-1) else none⟩

/-- One round of the loop, or the last call behind it. -/
def makerStep (cwd : Names) (path : Bytes) (refused : Bool) (m : Maker) (tree : Tree) :
    Maker × Tree :=
  if m.ret ≠ none then (m, tree)
  else match path[m.cur]? with
    | some c =>
      if c = slash then
        let made := mkdirCall cwd (path.take m.cur) refused tree
        (if made.1 = .failed then { m with ret := some (-1) } else { m with cur := m.cur+1 },
          made.2)
      else ({ m with cur := m.cur+1 }, tree)
    | none =>
      let made := mkdirCall cwd path refused tree
      ({ m with ret := some (if made.1 = .failed then -1 else 0) }, made.2)

structure Under (cwd : Names) (path : Bytes) (cur : ℕ) (tree : Tree) : Prop where
  pos : 1 ≤ cur
  le : cur ≤ path.length
  leads : ∃ front name d, path.take cur = front ++ name ∧ Cut front ∧ slash ∉ name ∧
    walk tree (names front) (origin cwd path) = some d

/-- Nothing but directories stands on the way of a path. -/
def Clear (cwd : Names) (path : Bytes) (tree : Tree) : Prop :=
  ∀ k, tree (((names path).take k).foldl follow (origin cwd path)) ≠ some .other

def Leads (cwd : Names) (path : Bytes) (tree : Tree) : Prop :=
  ∃ d, walk tree (names path) (origin cwd path) = some d

variable {cwd : Names} {path : Bytes} {cur : ℕ} {tree tree' : Tree}

theorem clear_grows (hg : Grows tree tree') (h : Clear cwd path tree) : Clear cwd path tree' :=
  fun k hk => h k (hg.made _ hk)

theorem leads_grows (hg : Grows tree tree') (h : Leads cwd path tree) : Leads cwd path tree' :=
  h.imp fun _ => walk_grows hg

theorem under_grows (hg : Grows tree tree') (h : Under cwd path cur tree) :
    Under cwd path cur tree' := by
  obtain ⟨hpos, hle, front, name, d, htake, hcut, hname, hwalk⟩ := h
  exact ⟨hpos, hle, front, name, d, htake, hcut, hname, walk_grows hg hwalk⟩

theorem under_start (h : path ≠ []) (tree : Tree) : Under cwd path 1 tree := by
  obtain ⟨c, rest, rfl⟩ := List.exists_cons_of_ne_nil h
  refine ⟨le_rfl, by simp, ?_⟩
  by_cases hc : c = slash
  · exact ⟨[slash], [], _, by rw [hc]; rfl, .inr ⟨[], rfl⟩, List.not_mem_nil, rfl⟩
  · exact ⟨[], [c], _, rfl, .inl rfl, fun h => hc (List.mem_singleton.mp h).symm, rfl⟩

theorem origin_take (hpos : 1 ≤ cur) (path : Bytes) :
    origin cwd (path.take cur) = origin cwd path := by
  obtain ⟨n, rfl⟩ := Nat.exists_eq_add_of_le' hpos
  cases path <;> rfl

theorem call_leads {rest : Bytes} (h : Under cwd path cur tree) (hclear : Clear cwd path tree)
    (hrest : names path = names (path.take cur) ++ names rest) :
    (mkdirCall cwd (path.take cur) false tree).1 ≠ .failed ∧
      Grows tree (mkdirCall cwd (path.take cur) false tree).2 ∧
      ∃ e, walk (mkdirCall cwd (path.take cur) false tree).2 (names (path.take cur))
        (origin cwd path) = some e := by
  obtain ⟨hpos, hle, front, name, d, htake, hcut, hname, hwalk⟩ := h
  have hcall : mkdirCall cwd (path.take cur) false tree =
      mkdir tree (origin cwd path) (front ++ name) := by
    show mkdir tree (origin cwd (path.take cur)) (path.take cur) = _
    rw [origin_take hpos, htake]
  rw [hcall, htake]
  refine mkdir_leads hcut hname hwalk fun hn => ?_
  have hnames : (names path).take ((names front).length+1) = names front ++ [name] := by
    rw [hrest, htake, names_cut hcut, names_single hname, if_neg hn]
    exact List.take_left' (by simp)
  have hplace := hclear ((names front).length+1)
  rwa [hnames, List.foldl_append, ← walk_follow hwalk] at hplace

structure Progress (cwd : Names) (path : Bytes) (refused : Bool) (m m' : Maker)
    (tree tree' : Tree) : Prop where
  grows : Grows tree tree'
  under : m'.ret = none → m'.cur = m.cur+1 ∧ Under cwd path m'.cur tree'
  made : m'.ret = some 0 → Leads cwd path tree'
  denied : ∀ r, m'.ret = some r → r = 0 ∨ r = -1 ∧ refused = true

theorem names_behind (q : Bytes) : names (q ++ [slash]) = names q := by
  rw [names_slash q []]
  exact List.append_nil _

/-- One round: a directory is made or there, or the system refused. -/
theorem maker_step {m : Maker} (h : Under cwd path m.cur tree) (hret : m.ret = none)
    (hclear : Clear cwd path tree) (refused : Bool) :
    Progress cwd path refused m (makerStep cwd path refused m tree).1 tree
      (makerStep cwd path refused m tree).2 := by
  unfold makerStep
  rw [if_neg (not_not.mpr hret)]
  cases hc : path[m.cur]? with
  | some c =>
    obtain ⟨hlt, _⟩ := List.getElem?_eq_some_iff.mp hc
    have htake : path.take (m.cur+1) = path.take m.cur ++ [c] := by
      rw [List.take_add_one, hc]
      rfl
    have hsplit : path = path.take m.cur ++ c::path.drop (m.cur+1) := by
      rw [← List.singleton_append, ← List.append_assoc, ← htake, List.take_append_drop]
    by_cases hs : c = slash
    · simp only [if_pos hs]
      cases refused with
      | true =>
        exact ⟨grows_refl tree, nofun, nofun, fun r hr => .inr ⟨(Option.some.inj hr).symm, rfl⟩⟩
      | false =>
        have hrest : names path = names (path.take m.cur) ++ names (path.drop (m.cur+1)) := by
          rw [← names_slash, ← hs, ← hsplit]
        obtain ⟨hmade, hgrows, e, he⟩ := call_leads h hclear hrest
        rw [if_neg hmade]
        refine ⟨hgrows, fun _ => ⟨rfl, ?_, hlt, ?_⟩, ?_, ?_⟩
        · exact Nat.le_add_left 1 m.cur
        · refine ⟨path.take m.cur ++ [slash], [], e, ?_, .inr ⟨_, rfl⟩, List.not_mem_nil, ?_⟩
          · rw [htake, hs, List.append_nil]
          · rw [names_behind, he]
        · intro hr
          rw [hret] at hr
          cases hr
        · intro r hr
          rw [hret] at hr
          cases hr
    · simp only [if_neg hs]
      refine ⟨grows_refl tree, fun _ => ⟨rfl, Nat.le_add_left 1 m.cur, hlt, ?_⟩, ?_, ?_⟩
      · obtain ⟨_, _, front, name, d, hfront, hcut, hname, hwalk⟩ := h
        refine ⟨front, name ++ [c], d, ?_, hcut, ?_, hwalk⟩
        · rw [htake, hfront, List.append_assoc]
        · rw [List.mem_append, List.mem_singleton]
          exact not_or.mpr ⟨hname, fun h => hs h.symm⟩
      · intro hr
        rw [hret] at hr
        cases hr
      · intro r hr
        rw [hret] at hr
        cases hr
  | none =>
    have hend : path.take m.cur = path := List.take_of_length_le (List.getElem?_eq_none_iff.mp hc)
    cases refused with
    | true =>
      exact ⟨grows_refl tree, nofun, nofun, fun r hr => .inr ⟨(Option.some.inj hr).symm, rfl⟩⟩
    | false =>
      have hrest : names path = names (path.take m.cur) ++ names [] := by
        rw [hend]
        exact (List.append_nil _).symm
      obtain ⟨hmade, hgrows, e, he⟩ := call_leads h hclear hrest
      rw [hend] at hmade hgrows he
      simp only [if_neg hmade]
      exact ⟨hgrows, nofun, fun _ => ⟨e, he⟩, fun r hr => .inl (Option.some.inj hr).symm⟩

end Makers

section Runs

variable {ι : Type*} [DecidableEq ι]

structure World (ι : Type*) where
  tree : Tree
  makers : ι → Maker

/-- A process takes a step; the flag says whether the system refuses its call. -/
def worldStep (cwd : ι → Names) (paths : ι → Bytes) (w : World ι) (e : ι × Bool) : World ι :=
  let s := makerStep (cwd e.1) (paths e.1) e.2 (w.makers e.1) w.tree
  ⟨s.2, Function.update w.makers e.1 s.1⟩

def worldStart (paths : ι → Bytes) (tree : Tree) : World ι := ⟨tree, fun p => makerStart (paths p)⟩

def runWorld (cwd : ι → Names) (paths : ι → Bytes) (w : World ι) (schedule : List (ι × Bool)) :
    World ι := schedule.foldl (worldStep cwd paths) w

def stepsOf (p : ι) (schedule : List (ι × Bool)) : ℕ := schedule.countP (fun e => e.1 = p)

structure Fair (cwd : Names) (path : Bytes) (steps : ℕ) (denied : Bool) (m : Maker) (tree : Tree) :
    Prop where
  under : m.ret = none → m.cur = steps+1 ∧ Under cwd path m.cur tree
  made : m.ret = some 0 → Leads cwd path tree
  denied : ∀ r, m.ret = some r → r = 0 ∨ r = -1 ∧ (path = [] ∨ denied = true)

theorem fair_start (cwd : Names) (path : Bytes) (tree : Tree) :
    Fair cwd path 0 false (makerStart path) tree := by
  unfold makerStart
  by_cases h : path = []
  · rw [if_pos h]
    exact ⟨nofun, nofun, fun r hr => .inr ⟨(Option.some.inj hr).symm, .inl h⟩⟩
  · rw [if_neg h]
    exact ⟨fun _ => ⟨rfl, under_start h tree⟩, nofun, nofun⟩

theorem fair_other {cwd : Names} {path : Bytes} {steps : ℕ} {denied : Bool} {m : Maker}
    {tree tree' : Tree} (hg : Grows tree tree') (h : Fair cwd path steps denied m tree) :
    Fair cwd path steps denied m tree' :=
  ⟨fun hr => (h.under hr).imp_right (under_grows hg), fun hr => leads_grows hg (h.made hr),
    h.denied⟩

theorem fair_step {cwd : Names} {path : Bytes} {steps : ℕ} {denied : Bool} {m : Maker}
    {tree : Tree} (hclear : Clear cwd path tree) (h : Fair cwd path steps denied m tree)
    (refused : Bool) : Grows tree (makerStep cwd path refused m tree).2 ∧
      Fair cwd path (steps+1) (denied || refused) (makerStep cwd path refused m tree).1
        (makerStep cwd path refused m tree).2 := by
  cases hret : m.ret with
  | none =>
    obtain ⟨hcur, hunder⟩ := h.under hret
    have hp := maker_step hunder hret hclear refused
    refine ⟨hp.grows, fun hr => ?_, hp.made, fun r hr => ?_⟩
    · obtain ⟨hnext, hu⟩ := hp.under hr
      exact ⟨by rw [hnext, hcur], hu⟩
    · refine (hp.denied r hr).imp_right fun ⟨hr, href⟩ => ⟨hr, .inr ?_⟩
      rw [href, Bool.or_true]
  | some r =>
    have hstay : makerStep cwd path refused m tree = (m, tree) := by
      unfold makerStep
      rw [if_pos (by rw [hret]; exact Option.some_ne_none r)]
    rw [hstay]
    refine ⟨grows_refl tree, fun hr => ?_, h.made, fun r hr => ?_⟩
    · rw [hret] at hr
      cases hr
    · refine (h.denied r hr).imp_right fun ⟨hr, hd⟩ => ⟨hr, hd.imp_right fun hd => ?_⟩
      rw [hd, Bool.true_or]

theorem run_fair (cwd : ι → Names) (paths : ι → Bytes) {tree : Tree}
    (hclear : ∀ p, Clear (cwd p) (paths p) tree) (schedule : List (ι × Bool)) :
    Grows tree (runWorld cwd paths (worldStart paths tree) schedule).tree ∧
      ∀ p, Fair (cwd p) (paths p) (stepsOf p schedule) (decide ((p, true) ∈ schedule))
        ((runWorld cwd paths (worldStart paths tree) schedule).makers p)
        (runWorld cwd paths (worldStart paths tree) schedule).tree := by
  induction schedule using List.reverseRecOn with
  | nil => exact ⟨grows_refl tree, fun p => fair_start (cwd p) (paths p) tree⟩
  | append_singleton schedule e ih =>
    obtain ⟨hg, hfair⟩ := ih
    have hrun : runWorld cwd paths (worldStart paths tree) (schedule ++ [e]) =
        worldStep cwd paths (runWorld cwd paths (worldStart paths tree) schedule) e := by
      rw [runWorld, List.foldl_append]
      rfl
    generalize runWorld cwd paths (worldStart paths tree) schedule = w at hg hfair hrun
    rw [hrun]
    obtain ⟨hgrows, hown⟩ := fair_step (clear_grows hg (hclear e.1)) (hfair e.1) e.2
    refine ⟨hg.trans hgrows, fun p => ?_⟩
    by_cases hp : p = e.1
    · subst hp
      have hsteps : stepsOf e.1 (schedule ++ [e]) = stepsOf e.1 schedule+1 := by
        simp [stepsOf]
      have hdenied : decide ((e.1, true) ∈ schedule ++ [e]) =
          (decide ((e.1, true) ∈ schedule) || e.2) := by
        obtain ⟨p, refused⟩ := e
        cases refused <;> simp
      rw [hsteps, hdenied]
      simp only [worldStep, Function.update_self]
      exact hown
    · have hsteps : stepsOf p (schedule ++ [e]) = stepsOf p schedule := by
        simp [stepsOf, Ne.symm hp]
      have hdenied : decide ((p, true) ∈ schedule ++ [e]) = decide ((p, true) ∈ schedule) := by
        have hne : (p, true) ≠ e := fun h => hp (congrArg Prod.fst h)
        simp [hne]
      rw [hsteps, hdenied]
      simp only [worldStep, Function.update_of_ne hp]
      exact fair_other hgrows (hfair p)

/-- However the steps of any number of calls are ordered, nothing vanishes, a
call fails only where the system refused it, one that returned 0 leaves its
path leading to a directory, and each returns after a step for each byte. -/
theorem chains_made (cwd : ι → Names) (paths : ι → Bytes) {tree : Tree}
    (hclear : ∀ p, Clear (cwd p) (paths p) tree) (schedule : List (ι × Bool)) :
    let w := runWorld cwd paths (worldStart paths tree) schedule
    Grows tree w.tree ∧ ∀ p,
      ((w.makers p).ret = some 0 → Leads (cwd p) (paths p) w.tree) ∧
      (∀ r, (w.makers p).ret = some r →
        r = 0 ∨ r = -1 ∧ (paths p = [] ∨ (p, true) ∈ schedule)) ∧
      ((paths p).length ≤ stepsOf p schedule → (w.makers p).ret ≠ none) := by
  obtain ⟨hg, hfair⟩ := run_fair cwd paths hclear schedule
  refine ⟨hg, fun p => ⟨(hfair p).made, fun r hr => ?_, fun hsteps hnone => ?_⟩⟩
  · refine ((hfair p).denied r hr).imp_right fun ⟨hr, hd⟩ => ⟨hr, hd.imp_right ?_⟩
    exact of_decide_eq_true
  · obtain ⟨hcur, hunder⟩ := (hfair p).under hnone
    have hle := hunder.le
    omega

def samplePaths (p : Bool) : Bytes := if p then ascii "/run/rss" else ascii "/run//rss/x"

def sampleSchedule : List (Bool × Bool) := (List.replicate 11 [(true, false), (false, false)]).flatten

theorem chains_made_sample :
    let w := runWorld (fun _ => []) samplePaths (worldStart samplePaths fun _ => none) sampleSchedule
    Grows (fun _ => none) w.tree ∧ ∀ p,
      ((w.makers p).ret = some 0 → Leads [] (samplePaths p) w.tree) ∧
      (∀ r, (w.makers p).ret = some r →
        r = 0 ∨ r = -1 ∧ (samplePaths p = [] ∨ (p, true) ∈ sampleSchedule)) ∧
      ((samplePaths p).length ≤ stepsOf p sampleSchedule → (w.makers p).ret ≠ none) :=
  chains_made (fun _ => []) samplePaths (fun _ _ h => by cases h) sampleSchedule

end Runs

end RaptorCommon.MakeDirs
