import Spreadsheet.CommandLine.Run
import Spreadsheet.Proofs.Document.History

namespace Spreadsheet

namespace Options

def withBulk (o : Options) : Options :=
  { o with bulk := true }

section Reading

variable {o o' : Options} {name value : String} {args : List String}

lemma assignments_withBulk : o.withBulk.assignments = o.assignments := rfl

lemma deletedColumns_withBulk : o.withBulk.deletedColumns = o.deletedColumns := rfl

lemma set?_withBulk (h : o.set? name value = some o') :
    o'.bulk = o.bulk ∧ o.withBulk.set? name value = some o'.withBulk := by
  unfold set? at h ⊢
  split at h
  · rw [Option.ite_none_left_eq_some] at h
    obtain ⟨hn, ⟨⟩⟩ := h
    exact ⟨rfl, if_neg hn⟩
  · obtain ⟨n, hn, hs⟩ := Option.bind_eq_some_iff.mp h
    rw [Option.ite_none_left_eq_some] at hs
    obtain ⟨hs, ⟨⟩⟩ := hs
    rw [hn]
    exact ⟨rfl, if_neg hs⟩
  · obtain ⟨n, hn, hs⟩ := Option.bind_eq_some_iff.mp h
    rw [Option.ite_none_right_eq_some] at hs
    obtain ⟨hs, ⟨⟩⟩ := hs
    rw [hn]
    exact ⟨rfl, if_pos hs⟩
  · cases h
    exact ⟨rfl, rfl⟩
  · cases h

-- The switch for bulk is the one that would be refused a second time, hence `hb`.
lemma switch?_withBulk (h : o.switch? name = some o') (hb : o'.bulk = false) :
    o.bulk = false ∧ o.withBulk.switch? name = some o'.withBulk := by
  unfold switch? at h ⊢
  split at h <;> grind [withBulk]

lemma read?_set?_withBulk
    (h : (do read? (← o.set? name value) args) = some (.run o'))
    (ih : ∀ o₁, read? o₁ args = some (.run o') →
      o₁.bulk = false ∧ read? o₁.withBulk args = some (.run o'.withBulk)) :
    o.bulk = false ∧ (do read? (← o.withBulk.set? name value) args) = some (.run o'.withBulk) := by
  obtain ⟨o₁, hs, hr⟩ := Option.bind_eq_some_iff.mp h
  obtain ⟨hb, hs⟩ := set?_withBulk hs
  rw [hs, ← hb]
  exact ih o₁ hr

lemma read?_withBulk (h : read? o args = some (.run o')) (hb : o'.bulk = false) :
    o.bulk = false ∧ read? o.withBulk args = some (.run o'.withBulk) := by
  fun_induction read? o args
  case case1 =>
    cases h
    exact ⟨hb, rfl⟩
  case case2 ha =>
    -- two dashes
    cases h
    unfold read?
    rw [ha]
    exact ⟨hb, rfl⟩
  case case3 ha ih =>
    -- an assignment
    unfold read?
    rw [ha]
    exact ih h
  case case6 ha ih | case16 ha ih =>
    -- an option and its value in one argument
    unfold read?
    simp only [ha]
    exact read?_set?_withBulk h ih
  case case8 _ _ ha hv _ _ hp ih =>
    -- an option and its value in two arguments
    unfold read?
    simp only [ha, hv, hp, if_true]
    exact read?_set?_withBulk h ih
  case case10 _ _ ha hv ih =>
    -- a switch
    obtain ⟨o₁, hs, hr⟩ := Option.bind_eq_some_iff.mp h
    obtain ⟨hb₁, hr⟩ := ih o₁ hr
    obtain ⟨hb, hs⟩ := switch?_withBulk hs hb₁
    unfold read?
    simp only [ha, if_neg hv, hs]
    exact ⟨hb, hr⟩
  case case14 ha _ _ hp ih =>
    unfold read?
    simp only [ha, hp, if_true]
    exact read?_set?_withBulk h ih
  all_goals cases h

lemma read?_bulk (h : read? .empty args = some (.run o)) (hb : o.bulk = false) :
    read? .empty ("--bulk" :: args) = some (.run o.withBulk) := by
  have ha : Argument.of "--bulk" = .long "bulk" none := by cbv
  unfold read?
  rw [ha]
  exact (read?_withBulk h hb).2

end Reading

end Options

namespace CommandLine

open Document

section Execution

variable {o : Options} {settings : Settings} {assignments : List Assignment} {columns : List Nat}
  {files : String → File} {standardFile : Option String} {args : List String}

lemma fill_eq_writeAll (hb : ∀ a ∈ assignments, Raw.isBlank a.raw = false)
    (hlen : assignments.length < settings.maxPasses) :
    (fill o (.empty settings) assignments).1 =
      (empty settings).writeAll (assignments.map fun a => (a.target, a.raw)) := by
  have hb' : ∀ c ∈ assignments.map fun a => (a.target, a.raw), Raw.isBlank c.2 = false := by
    intro c hc
    obtain ⟨a, ha, rfl⟩ := List.mem_map.mp hc
    exact hb a ha
  unfold fill
  split
  · exact load_eq_writeAll hb' (by rwa [List.length_map])
  · rw [writeAll, performAll, List.foldl_map, List.foldl_map]
    rfl

lemma build_fst : (build o settings assignments columns).1 =
    let rowsDeleted := o.deletedRows.foldl (fun d row => (d.deleteRow row).1)
      (fill o (.empty settings) assignments).1
    let d := columns.foldl (fun d col => (d.deleteColumn col).1) rowsDeleted
    if o.settle then d.refreshAll.1 else d :=
  apply_ite Prod.fst (o.settle = true) _ _

lemma build_withBulk (hb : ∀ a ∈ assignments, Raw.isBlank a.raw = false)
    (hlen : assignments.length < settings.maxPasses) :
    (build o.withBulk settings assignments columns).1 = (build o settings assignments columns).1 := by
  have hfill : (fill o.withBulk (.empty settings) assignments).1 =
      (fill o (.empty settings) assignments).1 :=
    (fill_eq_writeAll hb hlen).trans (fill_eq_writeAll hb hlen).symm
  rw [build_fst, build_fst, hfill]
  rfl

def Ending.shown (e : Ending) : Nat × String :=
  (e.exit, e.output)

lemma shown_report {sheet : Sheet} {stats : Option Stats} (hjson : o.json = false) :
    (report o sheet stats).shown = (0, Report.lines sheet) := by
  rw [report, hjson]
  rfl

lemma execute_of_ok (ha : o.assignments.mapM Input.assignment = .ok assignments)
    (hc : o.deletedColumns.mapM Input.column = .ok columns) :
    execute o settings = .ok (report o (build o settings assignments columns).1.sheet
      (build o settings assignments columns).2) := by
  unfold execute
  rw [ha, hc]
  rfl

lemma execute_withBulk (hjson : o.json = false)
    (hraw : ∀ text ∈ o.assignments, ∀ a, Input.assignment text = .ok a → Raw.isBlank a.raw = false)
    (hpasses : o.assignments.length < settings.maxPasses) :
    (execute o.withBulk settings).map Ending.shown = (execute o settings).map Ending.shown := by
  cases ha : o.assignments.mapM Input.assignment with
  | error e =>
    unfold execute
    rw [Options.assignments_withBulk, ha]
    rfl
  | ok assignments =>
    cases hc : o.deletedColumns.mapM Input.column with
    | error e =>
      unfold execute
      rw [Options.assignments_withBulk, Options.deletedColumns_withBulk, ha, hc]
      rfl
    | ok columns =>
      have hb : ∀ a ∈ assignments, Raw.isBlank a.raw = false := by
        intro a hm
        obtain ⟨text, ht, h⟩ := Outcome.exists_of_mapM_eq_ok ha a hm
        exact hraw text ht a h
      have hlen : assignments.length < settings.maxPasses :=
        (Outcome.forall₂_of_mapM_eq_ok ha).length_eq ▸ hpasses
      have hd : (build o.withBulk settings assignments columns).1 =
          (build o settings assignments columns).1 := build_withBulk hb hlen
      have hjson' : o.withBulk.json = false := hjson
      rw [execute_of_ok ha hc, execute_of_ok (o := o.withBulk) ha hc, Except.map, Except.map,
        shown_report hjson, shown_report hjson', hd]

lemma run_unloaded {path : String} (hread : Options.read? .empty args = some (.run o))
    (hload : loadSettings (m := Id) files standardFile o = .error path) :
    run (m := Id) files standardFile args = failure ("failed to load config " ++ path) := by
  unfold run
  rw [hread]
  dsimp only
  rw [hload]
  rfl

lemma shown_run (hread : Options.read? .empty args = some (.run o))
    (hload : loadSettings (m := Id) files standardFile o = .ok settings) :
    (run (m := Id) files standardFile args).shown =
      match (execute o (override o settings)).map Ending.shown with
      | .error e => (failure e.message).shown
      | .ok shown => shown := by
  unfold run
  rw [hread]
  dsimp only
  rw [hload]
  dsimp only [bind, pure]
  cases execute o (override o settings) <;> rfl

end Execution

theorem run_bulk (files : String → File) (standardFile : Option String) {args : List String}
    {o : Options} (hread : Options.read? .empty args = some (.run o)) (hbulk : o.bulk = false)
    (hjson : o.json = false)
    (hraw : ∀ text ∈ o.assignments, ∀ a, Input.assignment text = .ok a → Raw.isBlank a.raw = false)
    (hpasses : ∀ settings, loadSettings (m := Id) files standardFile o = .ok settings →
      o.assignments.length < (override o settings).maxPasses) :
    Options.read? .empty ("--bulk" :: args) = some (.run { o with bulk := true }) ∧
      ∀ args', Options.read? .empty args' = some (.run { o with bulk := true }) →
        (run (m := Id) files standardFile args').exit =
            (run (m := Id) files standardFile args).exit ∧
          (run (m := Id) files standardFile args').output =
            (run (m := Id) files standardFile args).output := by
  refine ⟨Options.read?_bulk hread hbulk, fun args' hread' => ?_⟩
  have hshown : (run (m := Id) files standardFile args').shown =
      (run (m := Id) files standardFile args).shown := by
    cases hload : loadSettings (m := Id) files standardFile o with
    | error path => rw [run_unloaded hread' hload, run_unloaded hread hload]
    | ok settings =>
      have he := execute_withBulk hjson hraw (hpasses settings hload)
      rw [shown_run hread' hload, shown_run hread hload, ← he]
      rfl
  exact ⟨congrArg Prod.fst hshown, congrArg Prod.snd hshown⟩

theorem run_bulk_broken_cycle :
    let args := ["B1==A1+1", "A1==B1", "A1=2", "--delete-column", "A"]
    let o : Options := { Options.empty with
      assignments := ["B1==A1+1", "A1==B1", "A1=2"], deletedColumns := ["A"] }
    let files : String → File := fun _ => .missing
    Options.read? .empty args = some (.run o) ∧ o.bulk = false ∧ o.json = false ∧
      (∀ text ∈ o.assignments, ∀ a, Input.assignment text = .ok a → Raw.isBlank a.raw = false) ∧
      (∀ settings, loadSettings (m := Id) files none o = .ok settings →
        o.assignments.length < (override o settings).maxPasses) ∧
      (run (m := Id) files none ("--bulk" :: args)).output =
        (run (m := Id) files none args).output := by
  intro args o files
  have hread : Options.read? .empty args = some (.run o) := by cbv
  have hraw : ∀ text ∈ o.assignments, ∀ a, Input.assignment text = .ok a →
      Raw.isBlank a.raw = false := by
    have hb : o.assignments.all fun text =>
      (Input.assignment text).toOption.all fun a => !Raw.isBlank a.raw := by decide
    intro text ht a ha
    have h := List.all_eq_true.mp hb text ht
    rw [ha] at h
    simpa [Except.toOption] using h
  have hpasses : ∀ settings, loadSettings (m := Id) files none o = .ok settings →
      o.assignments.length < (override o settings).maxPasses := by
    rintro _ ⟨⟩
    decide
  obtain ⟨hr, h⟩ := run_bulk files none hread rfl rfl hraw hpasses
  exact ⟨hread, rfl, rfl, hraw, hpasses, (h _ hr).2⟩

end CommandLine

end Spreadsheet
