/-
# What histories keep

Each activation adds to the history of the branches it enters, wherever in the tree they
are, and leaves the histories of those it does not enter. So when a node becomes
inactive, its part of the tree remembers its last configuration for as long as the node is
not entered (`Tree.Course.exists_memory_eq`): the branches that were active remember the
children that were. To enter the node through its histories restores that configuration
(`Tree.Settled.configuration_eq`), and to enter it with its previous child recalls this one
child and leaves the rest to the initial rules (`Tree.Settled.previous`).

Key definitions: `Tree.Course`, `Tree.activeBelow`, `Tree.FollowsInitialRules`.
Key theorems: `Tree.Settled.configuration_eq`, `Tree.Activates.followsInitialRules`,
`Tree.Course.exists_memory_eq`, `Tree.Course.history_fidelity`.
-/
import Statechart.Proofs.Activation

namespace Statechart
namespace Tree

/-! ### Comparing trees -/

theorem configuration_eq_of_dormant {t : Tree} : t.Dormant → t.configuration = t.plain := by
  induction t using Tree.induction with
  | mk n a cs ih =>
    intro h
    have ha : a.active = false := h _ (self_mem_preorder _)
    rw [configuration_mk, plain_mk, ha]
    refine congrArg _ (List.map_congr_left fun c hc => ih c hc fun u hu => ?_)
    exact h u (mem_preorder_of_child hc hu)

theorem exists_eq_of_memory_eq {t : Tree} {n : Node} {a : Activity} {ps : List Tree}
    (h : t.memory = (mk n a ps).memory) : ∃ b cs, t = mk n b cs ∧ b.history = a.history ∧
      cs.map memory = ps.map memory := by
  obtain ⟨m, b, cs⟩ := t
  rw [memory_mk, memory_mk] at h
  injection h with hn ha hcs
  injection ha with _ _ hhistory
  exact ⟨b, cs, by rw [hn], hhistory, hcs⟩

theorem names_eq_of_memory_eq {ts ps : List Tree} (h : ts.map memory = ps.map memory) :
    ts.map (·.node.name) = ps.map (·.node.name) := by
  have hnames : ∀ ts : List Tree, (ts.map memory).map (·.node.name) = ts.map (·.node.name) :=
    map_map_eq fun t => by rw [node_mapActivity]
  rw [← hnames ts, h, hnames ps]

/-- The nodes that are active in the tree, in pre-order. -/
def activeBelow (t : Tree) : List Node := (t.preorder.filter isActive).map (·.node)

theorem activeBelow_eq_of_configuration_eq {t u : Tree} (h : t.configuration = u.configuration) :
    t.activeBelow = u.activeBelow := by
  have hactive : ∀ t : Tree, t.configuration.activeBelow = t.activeBelow := fun t => by
    have hisActive : isActive ∘ configuration = isActive := funext fun u => by
      rw [Function.comp_apply, isActive, activity_mapActivity, isActive]
    rw [activeBelow, preorder_mapActivity, List.filter_map, hisActive, List.map_map, activeBelow]
    exact List.map_congr_left fun u _ => node_mapActivity _ u
  rw [← hactive t, h, hactive u]

/-- Nothing below a node that is not active was active. -/
theorem wasActive_eq_false {t s v : Tree} (hwf : t.WellFormed) (hlegal : t.Legal)
    (hs : s ∈ t.preorder) (ha : s.isActive = false) (hv : v ∈ s.preorder) :
    t.wasActive v.node.index = false := by
  rw [wasActive, List.any_eq_false]
  intro u hu hi
  obtain ⟨hmem, hactive⟩ := mem_activeNodes hu
  rw [hwf.eq_of_index_eq hmem (mem_preorder_trans hs hv) (by simpa using hi),
    hlegal.inactive s hs ha v hv] at hactive
  cases hactive

/-! ### Entering a node through its history -/

/-- The history of a branch leads to the child that it remembers last. -/
theorem historyIndex_of_latest {a : Activity} {ts l r : List Tree} {c : Tree}
    (latest : a.history.getLast? = some c.node.name)
    (names : ts.map (·.node.name) = (l ++ c :: r).map (·.node.name))
    (nodup : (ts.map (·.node.name)).Nodup) : historyIndex a ts = some l.length := by
  rw [historyIndex, latest, Option.bind_some, named_congr names]
  exact named_append (names ▸ nodup)

variable {choose : Chooser} {before : Nat → Bool}

/-- Children that were left are as they were when nothing in them was active. -/
theorem map_configuration_deactivate {ts ps : List Tree} (h : ts.map memory = ps.map memory)
    (dormant : ∀ p ∈ ps, p.Dormant) :
    (ts.map deactivate).map configuration = ps.map configuration := by
  have hps : ps.map configuration = ps.map plain :=
    List.map_congr_left fun p hp => configuration_eq_of_dormant (dormant p hp)
  have hts : (ts.map deactivate).map configuration = ts.map plain :=
    map_map_eq (fun t => by
      rw [configuration_eq_of_dormant (dormant_deactivate t), plain_deactivate]) ts
  have hplain : ∀ ts : List Tree, (ts.map memory).map plain = ts.map plain :=
    map_map_eq fun t => mapActivity_mapActivity _ _ t
  rw [hts, hps, ← hplain ts, h, hplain ps]

/-- A branch that was left goes back to its active child through its history. -/
theorem Settled.historyIndex_eq {p u : Tree} (h : p.Settled) (hwf : u.WellFormed)
    (hmem : u.memory = p.memory) {rule : InitialRule} (hs : u.node.shape = .branch rule) :
    ∃ l c r, p.children = l ++ c :: r ∧ p.children.filter Tree.isActive = [c] ∧
      historyIndex u.activity.enter u.children = some l.length := by
  cases h with
  | leaf shape =>
    obtain ⟨_, _, rfl, _⟩ := exists_eq_of_memory_eq hmem
    cases shape.symm.trans hs
  | parallel shape =>
    obtain ⟨_, _, rfl, _⟩ := exists_eq_of_memory_eq hmem
    cases shape.symm.trans hs
  | @branch n a _ l r c shape active latest child others =>
    obtain ⟨b, cs, rfl, hhistory, hcs⟩ := exists_eq_of_memory_eq hmem
    refine ⟨l, c, r, rfl, filter_isActive_of_dormant child.isActive others, ?_⟩
    refine historyIndex_of_latest ?_ (names_eq_of_memory_eq hcs) (hwf.names _ (self_mem_preorder _))
    rw [activity_mk, Activity.history_enter, hhistory, latest]

/-- A settled tree that was left is restored by entering it through its histories. -/
theorem Settled.configuration_eq {p : Tree} (h : p.Settled) : ∀ {u u' : Tree}, u.WellFormed →
    u.memory = p.memory → Activates choose before (.within true) u u' →
      u'.configuration = p.configuration := by
  induction h with
  | @leaf n a shape active =>
    intro u u' hwf hmem hact
    obtain ⟨b, cs, rfl, hhistory, hcs⟩ := exists_eq_of_memory_eq hmem
    cases hact with
    | leaf _ => rw [configuration_mk, configuration_mk, Activity.active_enter, active]
    | parallel shape' => cases shape.symm.trans shape'
    | branch shape' => cases shape.symm.trans shape'
  | @parallel n a ps shape active children ih =>
    intro u u' hwf hmem hact
    obtain ⟨b, cs, rfl, hhistory, hcs⟩ := exists_eq_of_memory_eq hmem
    cases hact with
    | leaf shape' => cases shape.symm.trans shape'
    | @parallel _ _ _ _ cs' _ length entered =>
      have hconf : cs'.map configuration = ps.map configuration :=
        map_eq_map_of_map_eq length hcs fun c c' p hzip hp hmem =>
          ih p hp (hwf.of_child (List.of_mem_zip hzip).1) hmem (entered c c' hzip)
      rw [configuration_mk, configuration_mk, Activity.active_enter, active, hconf]
    | branch shape' => cases shape.symm.trans shape'
  | @branch n a rule l r c shape active latest child others ih =>
    intro u u' hwf hmem hact
    obtain ⟨b, cs, rfl, hhistory, hcs⟩ := exists_eq_of_memory_eq hmem
    cases hact with
    | leaf shape' => cases shape.symm.trans shape'
    | parallel shape' => cases shape.symm.trans shape'
    -- The child entered is at the place of the one that was active, as both are where the
    -- history says.
    | @branch _ entry' _ _ _ lu ru cu cu' shape' chosen entered =>
      have hindex : historyIndex b.enter (lu ++ cu :: ru) = some l.length :=
        historyIndex_of_latest (by rw [Activity.history_enter, hhistory, latest])
          (names_eq_of_memory_eq hcs) (hwf.names _ (self_mem_preorder _))
      rw [select] at chosen
      simp only [if_true, hindex, Except.ok.injEq, Prod.mk.injEq] at chosen
      obtain ⟨hlen, rfl⟩ := chosen
      obtain ⟨hl, hc, hr⟩ := map_append_cons_inj hlen.symm hcs
      have hconf := ih (hwf.of_child (by simp)) hc entered
      rw [configuration_mk, configuration_mk, Activity.active_remember, Activity.active_enter,
        active, List.map_append, List.map_cons, hconf, List.map_append, List.map_cons,
        map_configuration_deactivate hl fun p hp => others p (List.mem_append_left _ hp),
        map_configuration_deactivate hr fun p hp => others p (List.mem_append_right _ hp)]

/-- To restore what was left is to enter it through its histories. -/
theorem Settled.within_of_restore {p u u' : Tree} (h : p.Settled) (hwf : u.WellFormed)
    (hmem : u.memory = p.memory) (hact : Activates choose before (.target .restore) u u') :
    Activates choose before (.within true) u u' := by
  cases hact with
  | leaf shape => exact .leaf shape
  | parallel shape length entered => exact .parallel shape length entered
  | branch shape chosen entered =>
    obtain ⟨l, c, r, -, -, hindex⟩ := h.historyIndex_eq hwf hmem shape
    rw [activity_mk, children_mk] at hindex
    refine .branch shape ?_ entered
    simp only [select] at chosen ⊢
    simpa [hindex] using chosen

/-! ### Entering nodes by their initial rules -/

theorem isActive_iff_of_getElem? {l r : List Tree} {c u : Tree} {j : Nat} (hc : c.isActive = true)
    (others : ∀ s ∈ l ++ r, s.Dormant) (hu : (l ++ c :: r)[j]? = some u) :
    u.isActive = true ↔ j = l.length := by
  have hother : u ∈ l ++ r → (u.isActive = true ↔ False) := fun hu => by
    simp [others u hu u u.self_mem_preorder]
  rcases Nat.lt_trichotomy j l.length with hj | rfl | hj
  · rw [List.getElem?_append_left hj] at hu
    rw [hother (List.mem_append_left r (List.mem_of_getElem? hu))]
    exact iff_of_false id (by omega)
  · rw [List.getElem?_append_right (Nat.le_refl _), Nat.sub_self] at hu
    cases hu
    exact iff_of_true hc rfl
  · obtain ⟨k, hk⟩ := Nat.exists_eq_add_of_lt hj
    rw [List.getElem?_append_right (Nat.le_of_lt hj), show j - l.length = k + 1 by omega,
      List.getElem?_cons_succ] at hu
    rw [hother (List.mem_append_right l (List.mem_of_getElem? hu))]
    exact iff_of_false id (by omega)

/-- Each active branch of the tree has the child active that its initial rule gives, and no
other. -/
def FollowsInitialRules (choose : Chooser) (t : Tree) : Prop :=
  ∀ u ∈ t.preorder, u.isActive = true → ∀ rule, u.node.shape = .branch rule →
    ∃ i, initialIndex choose rule u.children = .ok i ∧
      ∀ j v, u.children[j]? = some v → (v.isActive = true ↔ j = i)

/-- Below nodes that were not active before and are not restored, branches follow their
initial rules. -/
theorem Activates.followsInitialRules {entry : Approach} {u u' : Tree}
    (h : Activates choose before entry u u') : entry = .within false →
      (∀ v ∈ u.preorder, before v.node.index = false) → u'.FollowsInitialRules choose := by
  induction h with
  | leaf shape =>
    intro _ _ v hv _ rule hs
    obtain rfl : v = _ := by simpa [preorder_mk] using hv
    cases shape.symm.trans hs
  | parallel shape length _ ih =>
    intro he hbefore v hv ha rule hs
    rcases mem_preorder_iff.mp hv with rfl | ⟨c', hc', hin⟩
    · cases shape.symm.trans hs
    · obtain ⟨c, hzip⟩ := exists_mem_zip_right length hc'
      have hc := (List.of_mem_zip hzip).1
      refine ih c c' hzip (by rw [he]; rfl) (fun w hw => ?_) v hin ha rule hs
      exact hbefore w (mem_preorder_of_child hc hw)
  | @branch entry entry' n a rule' l r c c' shape chosen child ih =>
    intro he hbefore v hv ha rule hs
    have hinitial : initialIndex choose rule' (l ++ c :: r) = .ok l.length ∧
        entry' = .within false := by
      have hnone : before n.index = false := hbefore _ (self_mem_preorder _)
      rw [he, select, hnone] at chosen
      simp only [Bool.false_eq_true, if_false] at chosen
      cases hi : initialIndex choose rule' (l ++ c :: r) with
      | error e =>
        rw [hi] at chosen
        cases chosen
      | ok i =>
        rw [hi] at chosen
        cases chosen
        exact ⟨rfl, rfl⟩
    rcases mem_preorder_iff.mp hv with rfl | ⟨s, hsmem, hin⟩
    · cases shape.symm.trans hs
      refine ⟨l.length, ?_, fun j w hw => ?_⟩
      · rw [← hinitial.1]
        refine initialIndex_congr choose rule' ?_
        have hnames : ∀ ts : List Tree,
            (ts.map deactivate).map (·.node.name) = ts.map (·.node.name) :=
          map_map_eq fun t => by rw [node_deactivate]
        rw [children_mk, List.map_append, List.map_cons, hnames, hnames, child.node_eq,
          List.map_append, List.map_cons]
      · have hactive :=
          isActive_iff_of_getElem? child.settled.isActive dormant_of_mem_map_deactivate hw
        rwa [List.length_map] at hactive
    · rcases mem_append_cons_iff.mp hsmem with rfl | hsmem
      · refine ih hinitial.2 (fun w hw => ?_) v hin ha rule hs
        exact hbefore w (mem_preorder_of_child (by simp) hw)
      · rw [dormant_of_mem_map_deactivate s hsmem v hin] at ha
        cases ha

/-- The child that was active is entered again, and all below it by its initial rules. -/
theorem Settled.previous {p u u' : Tree} (h : p.Settled) (hwf : u.WellFormed)
    (hmem : u.memory = p.memory) (hbefore : ∀ v ∈ u.preorder, before v.node.index = false)
    {rule : InitialRule} (hs : u.node.shape = .branch rule)
    (hact : Activates choose before (.target .previous) u u') :
    ∃ k k', p.children.filter Tree.isActive = [k] ∧ u'.children.filter Tree.isActive = [k'] ∧
      k'.node = k.node ∧ k'.FollowsInitialRules choose := by
  obtain ⟨l, k, r, hchildren, hfilter, hindex⟩ := h.historyIndex_eq hwf hmem hs
  cases hact with
  | leaf shape => cases shape.symm.trans hs
  | parallel shape => cases shape.symm.trans hs
  | @branch _ entry' n b rule' lu ru cu cu' shape chosen entered =>
    rw [activity_mk, children_mk] at hindex
    simp only [select, reduceCtorEq, if_false, hindex, Except.ok.injEq, Prod.mk.injEq,
      decide_false] at chosen
    obtain ⟨hlen, rfl⟩ := chosen
    have hcs := congrArg Tree.children hmem
    rw [children_mapActivity, children_mapActivity, children_mk, hchildren] at hcs
    obtain ⟨-, hk, -⟩ := map_append_cons_inj hlen.symm hcs
    have hnode : cu.node = k.node := by simpa using congrArg Tree.node hk
    refine ⟨k, cu', hfilter, ?_, entered.node_eq.trans hnode, ?_⟩
    · exact filter_isActive_of_dormant entered.settled.isActive dormant_of_mem_map_deactivate
    · exact entered.followsInitialRules rfl fun v hv =>
        hbefore v (mem_preorder_of_child (by simp) hv)

/-! ### Runs -/

/-- The configurations of a run of the tree, the latest first: it begins with the
activation of the root, and goes on with transitions to nodes. -/
inductive Course (start : Tree) : List Tree → Prop
  | begin {choose : Chooser} {t : Tree}
    (h : start.activate choose (fun _ => false) (.target .fresh) = (t, none)) : Course start [t]
  | move {choose : Chooser} {now t n : Tree} {earlier : List Tree} {recalls : Recall}
    (run : Course start (now :: earlier)) (target : n ∈ now.preorder)
    (h : now.activate choose now.wasActive (.down n.node.trail recalls) = (t, none)) :
    Course start (t :: now :: earlier)

variable {D : Type} {d : Design D} {id : String} {c : Compiled D}

namespace Course

/-- What a run of a compiled tree gets to is settled, and the tree of the design but for
activity. -/
theorem settled (hc : d.compile id = .ok c) {ts : List Tree} (run : Course c.tree ts) :
    ∀ t ∈ ts, t.Settled ∧ t.plain = c.tree := by
  induction run with
  | begin h =>
    have hplain := (Design.tree_of_compile hc).2.1
    have hact := activates_of_activate (wellFormed_of_compile hc hplain) h
    refine List.forall_mem_singleton.mpr ⟨hact.settled, hact.plain_eq.trans hplain⟩
  | move run target h ih =>
    have hplain := (ih _ List.mem_cons_self).2
    have hact := activates_of_activate (wellFormed_of_compile hc hplain) h
    exact List.forall_mem_cons.mpr ⟨⟨hact.settled, hact.plain_eq.trans hplain⟩, ih⟩

/-- A node that is not active remembers what it did when it was active last. -/
theorem exists_memory_eq (hc : d.compile id = .ok c) {ts : List Tree} (run : Course c.tree ts) :
    ∀ {now : Tree} {earlier : List Tree} {s past : Tree}, ts = now :: earlier → s ∈ now.preorder →
      s.isActive = false → ts.find? (·.activeAt s.node.index) = some past →
        ∃ p ∈ past.preorder, p.node = s.node ∧ p.isActive = true ∧ p.memory = s.memory := by
  have hnow : ∀ {t s : Tree}, t.plain = c.tree → s ∈ t.preorder →
      t.activeAt s.node.index = s.isActive :=
    fun hplain hs => (wellFormed_of_compile hc hplain).activeAt_iff hs
  induction run with
  | @begin choose t h =>
    rintro _ _ s past ⟨⟩ hs ha hpast
    have hplain := (settled hc (.begin h) t List.mem_cons_self).2
    simp [hnow hplain hs, ha] at hpast
  | @move choose prev t n earlier recalls run target h ih =>
    rintro _ _ s past ⟨⟩ hs ha hpast
    have hplain := (settled hc (.move run target h) t List.mem_cons_self).2
    have hprev := (settled hc run prev List.mem_cons_self).2
    rw [List.find?_cons_of_neg (by simp [hnow hplain hs, ha])] at hpast
    -- The last transition left `s`, and what it left is as it was but for activity. So if `s`
    -- was active until then, this is what it remembers, and otherwise what it remembered.
    obtain ⟨u, hu, rfl⟩ :=
      (activates_of_activate (wellFormed_of_compile hc hprev) h).exists_deactivate_eq s hs ha
    rw [node_deactivate] at hpast ⊢
    rw [memory_deactivate]
    cases hua : u.isActive with
    | true =>
      rw [List.find?_cons_of_pos (by rw [hnow hprev hu, hua])] at hpast
      cases hpast
      exact ⟨u, hu, rfl, hua, rfl⟩
    | false => exact ih rfl hu hua hpast

/-- **History.** A transition to a node that was active, and is not, restores what was
active in it last if it asks for that; if it asks for the previous child of a branch, it
enters the child that was active last, and all below that by initial rules. -/
theorem history_fidelity (hc : d.compile id = .ok c) {now : Tree} {earlier : List Tree}
    (run : Course c.tree (now :: earlier)) {s : Tree} (hs : s ∈ now.preorder)
    (ha : s.isActive = false) {past : Tree}
    (hpast : (now :: earlier).find? (·.activeAt s.node.index) = some past) {choose : Chooser}
    {recalls : Recall} {t : Tree}
    (h : now.activate choose now.wasActive (.down s.node.trail recalls) = (t, none)) :
    ∃ p ∈ past.preorder, ∃ s' ∈ t.preorder, p.node = s.node ∧ s'.node = s.node ∧
      (recalls = .restore → s'.activeBelow = p.activeBelow) ∧
      (recalls = .previous → ∀ rule, s.node.shape = .branch rule →
        ∃ k k', p.children.filter isActive = [k] ∧ s'.children.filter isActive = [k'] ∧
          k'.node = k.node ∧ k'.FollowsInitialRules choose) := by
  obtain ⟨hsettled, hplain⟩ := settled hc run now List.mem_cons_self
  have hwf := wellFormed_of_compile hc hplain
  obtain ⟨p, hp, hnode, hpa, hmem⟩ := exists_memory_eq hc run rfl hs ha hpast
  have hpsettled := (settled hc run past (List.mem_of_find?_eq_some hpast)).1.of_mem hp hpa
  obtain ⟨s', hs', hact⟩ := (activates_of_activate hwf h).exists_target hwf rfl hs
    (by rw [trail_of_compile hc hplain, List.nil_append])
  refine ⟨p, hp, s', hs', hnode, hact.node_eq, ?_, ?_⟩
  · rintro rfl
    exact activeBelow_eq_of_configuration_eq (hpsettled.configuration_eq (hwf.of_mem hs) hmem.symm
      (hpsettled.within_of_restore (hwf.of_mem hs) hmem.symm hact))
  · rintro rfl rule hshape
    exact hpsettled.previous (hwf.of_mem hs) hmem.symm
      (fun v hv => wasActive_eq_false hwf hsettled.legal hs ha hv) hshape hact

end Course

/-- The device is turned on, its lamp made bright, and turned off. To turn it on as it was
makes the lamp bright again. -/
theorem Course.history_fidelity_device :
    let choose : Chooser :=
      (⟨(Design.device.build "m").table, .null⟩ : Context Unit).initialChild ()
    let tree := (Design.device.build "m").tree
    let idle := (tree.activate choose (fun _ => false) (.target .fresh)).1
    let bright := (idle.activate choose idle.wasActive (.down ["on", "lamp", "bright"] .fresh)).1
    let off := (bright.activate choose bright.wasActive (.down ["off"] .fresh)).1
    let again := (off.activate choose off.wasActive (.down ["on"] .restore)).1
    Course tree [off, bright, idle] ∧ off.activePaths = ["m", "m.off"] ∧
      again.activePaths = ["m", "m.on", "m.on.lamp", "m.on.lamp.bright", "m.on.fan"] ∧
      ∃ p ∈ bright.preorder, ∃ s ∈ again.preorder, p.node.path = "m.on" ∧ s.node = p.node ∧
        s.activeBelow = p.activeBelow := by
  intro choose tree idle bright off again
  have hidle : Course tree [idle] := .begin (Prod.ext rfl (by decide))
  have hbright : Course tree [bright, idle] := by
    have h : idle.activate choose idle.wasActive (.down ["on", "lamp", "bright"] .fresh) =
        (bright, none) := Prod.ext rfl (by decide)
    obtain ⟨n, hn, htrail⟩ :
        ∃ n ∈ idle.preorder, n.node.trail = ["on", "lamp", "bright"] := by decide
    exact .move hidle hn (htrail ▸ h)
  have hoff : Course tree [off, bright, idle] := by
    have h : bright.activate choose bright.wasActive (.down ["off"] .fresh) = (off, none) :=
      Prod.ext rfl (by decide)
    obtain ⟨n, hn, htrail⟩ : ∃ n ∈ bright.preorder, n.node.trail = ["off"] := by decide
    exact .move hbright hn (htrail ▸ h)
  have hagain : off.activate choose off.wasActive (.down ["on"] .restore) = (again, none) :=
    Prod.ext rfl (by decide)
  obtain ⟨on, hon, htrail, hindex, hpath, ha⟩ : ∃ on ∈ off.preorder, on.node.trail = ["on"] ∧
      on.node.index = 5 ∧ on.node.path = "m.on" ∧ on.isActive = false := by decide
  have hpast : [off, bright, idle].find? (·.activeAt on.node.index) = some bright := by
    rw [hindex, List.find?_cons_of_neg (by decide), List.find?_cons_of_pos (by decide)]
  obtain ⟨p, hp, s, hs, hnode, hnode', hrestore, -⟩ := hoff.history_fidelity Design.compile_device
    hon ha hpast (htrail ▸ hagain)
  refine ⟨hoff, by decide, by decide, p, hp, s, hs, ?_, hnode'.trans hnode.symm, hrestore rfl⟩
  rw [hnode, hpath]

end Tree
end Statechart
