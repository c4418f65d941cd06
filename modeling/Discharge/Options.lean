/-!
# Options of a session

A session may name the tactic by which conditions are decided and set parameters of it. A parameter is
known by its name in lower case with underscores, also behind the name of its module, and its value has
to be of the parameter's kind. No known option changes a verdict, but for the tactic that decides nothing.
Which tactics and what of the parameters are modelled is said at `Options` and `searchTactics`.
-/

namespace Discharge

/-- The kinds of parameter values. -/
inductive ParameterKind where
  | bool
  | natural
  | real
  | symbol
  /-- Values that no parameter has. -/
  | other
deriving DecidableEq

/-- How a session decides conditions. `tactic` names a way to decide them; without a name the usual
one is taken. `params` are the names of parameters that are set, each with the kind of its value, and
`simplify` is whether a condition is rewritten to a simpler one before it is decided.

No function reads `simplify`: the simpler condition holds under the same assignments, and a verdict
speaks of these alone. Of the values of parameters only the kinds are kept, because a value of the wrong
kind is refused. Values of the right kind choose among strategies, all of which are sound, or set limits
of time and steps. A limit that is reached leaves undecided what would else be decided; limits are not
modelled, so a verdict is that of a session which stays within its own. -/
structure Options where
  simplify : Bool := true
  tactic : Option String := none
  params : List (String × ParameterKind) := []

/-- Ways to decide a condition: search for a proof or a counterexample, or decide nothing. -/
inductive Tactic where
  | search
  | skip
deriving DecidableEq

/-- Names of parameters, by the kind of their values. -/
structure ParameterTable where
  bools : List String := []
  naturals : List String := []
  reals : List String := []
  symbols : List String := []

namespace ParameterTable

/-- The kind of a parameter. -/
def kind? (t : ParameterTable) (name : String) : Option ParameterKind :=
  if t.bools.contains name then some .bool
  else if t.naturals.contains name then some .natural
  else if t.reals.contains name then some .real
  else if t.symbols.contains name then some .symbol
  else none

end ParameterTable

/-- The parameters that every tactic has. -/
def generalParameters : ParameterTable where
  bools := ["ctrl_c", "proof", "model", "unsat_core", "lemmas2console", "instantiations2console",
    "axioms2files", "slice", "proof.check", "proof.check_rup", "proof.save", "proof.trim",
    "enforce_model_conversion"]
  naturals := ["timeout", "rlimit"]
  symbols := ["smtlib2_log", "cancel_backup_file", "proof.log"]

/-- The parameters of the search. -/
def searchParameters : ParameterTable where
  bools := ["auto_config", "macro_finder", "quasi_macros", "restricted_quasi_macros", "ematching",
    "delay_units", "elim_unconstrained", "solve_eqs", "propagate_values", "bound_simplifier",
    "pull_nested_quantifiers", "refine_inj_axioms", "candidate_models", "mbqi", "mbqi.trace", "q.lite",
    "qi.profile", "induction", "clause_proof", "theory_case_split", "theory_aware_branching",
    "dack.eq", "array.weak", "array.extensional", "up.persist_clauses", "pb.learn_complements",
    "core.validate", "core.minimize", "core.extend_patterns", "core.extend_nonlocal_patterns",
    "bv.reflect", "bv.enable_int2bv", "bv.watch_diseq", "bv.delay", "bv.size_reduce",
    "arith.random_initial_value", "arith.nl", "arith.nl.nra", "arith.nl.branching",
    "arith.nl.expensive_patching", "arith.nl.order", "arith.nl.tangents", "arith.nl.horner",
    "arith.nl.grobner", "arith.nl.grobner_propagate_quotients", "arith.nl.grobner_gcd_test",
    "arith.nl.grobner_exp_delay", "arith.nl.propagate_linear_monomials", "arith.nl.optimize_bounds",
    "arith.nl.cross_nested", "arith.nl.log", "arith.propagate_eqs", "arith.int_eq_branch",
    "arith.ignore_int", "arith.dump_lemmas", "arith.dump_bound_lemmas", "arith.greatest_error_pivot",
    "arith.eager_eq_axioms", "arith.auto_config_simplex", "arith.min", "arith.print_stats",
    "arith.enable_hnf", "arith.bprop_on_pivoted_rows", "arith.print_ext_var_names", "arith.validate",
    "seq.split_w_len", "seq.validate", "str.strong_arrangements", "recfun.native", "sls.enable",
    "sls.parallel"]
  naturals := ["random_seed", "relevancy", "phase_selection", "phase_caching_on", "phase_caching_off",
    "restart_strategy", "case_split", "delay_units_threshold", "max_conflicts", "restart.max",
    "cube_depth", "threads", "threads.max_conflicts", "threads.cube_frequency", "mbqi.max_cexs",
    "mbqi.max_cexs_incr", "mbqi.max_iterations", "mbqi.force_template", "q.lift_ite",
    "qi.profile_freq", "qi.max_instances", "qi.max_multi_patterns", "qi.quick_checker", "bv.solver",
    "arith.solver", "arith.nl.rounds", "arith.nl.horner_subs_fixed", "arith.nl.horner_frequency",
    "arith.nl.horner_row_length_limit", "arith.nl.grobner_row_length_limit",
    "arith.nl.grobner_frequency", "arith.nl.grobner_eqs_growth",
    "arith.nl.grobner_expr_size_growth", "arith.nl.grobner_expr_degree_growth",
    "arith.nl.grobner_max_simplified", "arith.nl.grobner_cnfl_to_report", "arith.nl.gr_q",
    "arith.nl.grobner_subs_fixed", "arith.nl.delay", "arith.propagation_mode",
    "arith.branch_cut_ratio", "arith.rep_freq", "arith.simplex_strategy", "pb.conflict_frequency",
    "dack", "dack.gc", "dack.threshold", "core.extend_patterns.max_distance", "seq.max_unfolding",
    "seq.min_unfolding", "lemma_gc_strategy", "dt_lazy_splits", "recfun.depth"]
  reals := ["restart_factor", "qi.eager_threshold", "qi.lazy_threshold", "dack.gc_inv_decay",
    "dack.factor"]
  symbols := ["logic", "mbqi.id", "qi.cost", "string_solver"]

/-- The parameters of the steps around the search that the usual tactic takes. -/
def preparationParameters : ParameterTable where
  bools := ["ignore_solver1", "algebraic_number_evaluator", "arith_ineq_lhs", "arith_lhs",
    "bit2bool", "blast_distinct", "blast_eq_value", "blast_select_store", "bv_extract_prop",
    "bv_ite2id", "bv_le_extra", "bv_not_simpl", "bv_sort_ac", "cache_all", "elim_and", "elim_ite",
    "elim_rem", "elim_sign_ext", "elim_to_real", "eq2ineq", "expand_nested_stores", "expand_power",
    "expand_select_ite", "expand_select_store", "expand_store_eq", "expand_tan", "flat",
    "flat_and_or", "gcd_rounding", "hi_div0", "hoist_ite", "hoist_mul",
    "ignore_patterns_on_ground_qbody", "ite_extra_rules", "local_ctx", "mul2concat", "mul_to_power",
    "pull_cheap_ite", "push_ite_arith", "push_ite_bv", "push_to_real", "rewrite_patterns", "som",
    "sort_store", "sort_sums", "split_concat_eq", "sort_disjunctions", "udiv2mul", "abce", "acce",
    "anf", "ate", "bca", "bce", "cce", "cut", "elim_vars", "asymm_branch", "probing", "subsumption",
    "dyn_sub_res", "force_cleanup", "minimize_lemmas", "local_search", "factor", "check_lemmas",
    "inline_vars", "minimize_conflicts", "randomize", "reorder", "shuffle_vars",
    "simplify_conflicts", "common_patterns", "ite_chaing", "solve_eqs_ite_solver",
    "theory_solver", "context_solve", "complete", "elim_root_objects", "elim_inverses",
    "produce_models", "skolemize", "distributivity"]
  naturals := ["solver2_timeout", "solver2_unknown", "blast_distinct_threshold",
    "bv_ineq_consistency_test_max", "local_ctx_limit", "max_degree", "max_memory", "max_steps",
    "som_blowup", "seed", "lazy", "max_depth", "solve_eqs_max_occs", "burst_search",
    "inprocess.max", "gc.initial", "gc.increment", "restart.initial", "variable_decay"]
  reals := ["random_freq"]
  symbols := ["phase", "restart", "gc", "branching.heuristic", "nnf.mode"]

/-- The tactics that search.

The list is not one of all tactics that a solver may know. Tactics that transform a condition and decide
it only if nothing is left of it (those that simplify, solve equations, split or eliminate quantifiers)
are left out, and so are those for a single kind of problem that is not met here. What they decide
depends on their rewriting, which is not modelled; a session that names one of them is answered like a
session with a name that no tactic has. -/
def searchTactics : List String :=
  ["smt", "default", "psmt", "auflia", "auflira", "aufnira", "lia", "lira", "lra", "nra", "ufnia",
    "uflra", "qflia", "qflra", "qfnia", "qfnra", "qfauflia", "qfidl", "qfuf", "smtfd"]

namespace Options

/-- The name of a parameter as tables have it: a colon in front is left out, capitals become small, and
hyphens and further colons become underscores. -/
def plainName (name : String) : String :=
  let cs := match name.toList with
    | ':' :: cs => cs
    | cs => cs
  String.ofList (cs.map fun c => if c == '-' || c == ':' then '_' else c.toLower)

/-- The kind of a parameter, also behind the name of its module. -/
def kindIn? (tables : List (String × ParameterTable)) (name : String) : Option ParameterKind :=
  match tables.findSome? fun (_, t) => t.kind? name with
  | some k => some k
  | none =>
    tables.findSome? fun (module, t) =>
      let inFront := module.toList ++ ['.']
      if inFront.isPrefixOf name.toList then t.kind? (String.ofList (name.toList.drop inFront.length))
      else none

/-- The tables of the parameters that a tactic has. -/
def tables (tactic : Option String) : List (String × ParameterTable) :=
  match tactic with
  | some "skip" => [("solver", generalParameters)]
  | some "smt" => [("solver", generalParameters), ("smt", searchParameters)]
  | _ =>
    [("solver", generalParameters), ("smt", searchParameters),
      ("combined_solver", preparationParameters)]

/-- Whether all parameters are known and have values of their kinds. -/
def parametersFit (o : Options) : Bool :=
  o.params.all fun (name, kind) => kindIn? (tables o.tactic) (plainName name) == some kind

/-- The way to decide that the options ask for, if they name a known one and known parameters. -/
def tactic? (o : Options) : Option Tactic :=
  if o.parametersFit then
    match o.tactic with
    | none => some .search
    | some "skip" => some .skip
    | some name => if searchTactics.contains name then some .search else none
  else none

end Options

end Discharge
