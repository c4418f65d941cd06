import Discharge.Decision.Decide
import Discharge.Encoding.Encoder
import Discharge.Options
import Discharge.Syntax.Resolution

/-!
# Sessions

A session answers steps one after the other: it defines predicates, encodes expressions, checks
conditions and looks things up. All that a step leaves behind is a definition, and only a definition
that succeeds; a failing step leaves nothing.
-/

namespace Discharge

/-- A condition as it is handed to a session. -/
inductive Condition where
  | text (s : String)
  | exp (e : Exp)

/-- Steps of a session. -/
inductive Step where
  | define (name : String) (parameters : List Variable) (body : Condition)
  | encode (condition : Condition)
  | check (condition : Condition)
  | lookup (name : String)
  | contains (name : String)
  | size
  | sort (type : Ty)

/-- Why a step fails. -/
inductive StepError where
  | unreadable (e : ReadError)
  | defect (d : Defect)
  | unknownOption

/-- The outcome of a check: the condition holds always, or there is a counterexample, or something
that stands for one because the condition was not decided. -/
inductive Verdict where
  | valid
  | notProven (m : CounterModel)

/-- What a step answers. -/
inductive StepAnswer where
  | size (n : Nat)
  | term (t : Term)
  | verdict (v : Verdict)
  | definition (d : Definition)
  | contains (b : Bool)
  | sort (s : TermSort)
  | failed (e : StepError)

/-- What is fixed for a whole session: its options, and the variables and predicate names that texts
may use. -/
structure Setting where
  options : Options
  declared : List Variable
  predicates : List Predicate

namespace Setting

/-- Reads a condition over the session's variables and further ones. -/
def read (s : Setting) (further : List Variable) : Condition → Except StepError Exp
  | .exp e => .ok e
  | .text t =>
    match Exp.parse t (s.declared ++ further) s.predicates with
    | .ok e => .ok e
    | .error e => .error (.unreadable e)

end Setting

/-- The verdict on a term. -/
def Term.verdict (tactic : Tactic) (t : Term) : Verdict :=
  match tactic with
  | .skip => .notProven ⟨.empty, some "incomplete"⟩
  | .search =>
    match t.decide with
    | .valid => .valid
    | .refuted m => .notProven ⟨m.assignments, none⟩
    | .undecided => .notProven ⟨.empty, some "incomplete"⟩

/-- Checks a condition: first its encoding and its sort, then the options, then its validity. -/
def Definitions.check (ds : Definitions) (options : Options) (e : Exp) :
    Except StepError Verdict :=
  match e.encode ds with
  | .error d => .error (.defect d)
  | .ok t =>
    match expect e .bool t with
    | .error d => .error (.defect d)
    | .ok goal =>
      match options.tactic? with
      | none => .error .unknownOption
      | some tactic => .ok (goal.verdict tactic)

namespace Step

/-- The definitions after a step. Only a successful definition changes them. -/
def after (s : Setting) (ds : Definitions) : Step → Definitions
  | .define name parameters body =>
    match s.read parameters body with
    | .error _ => ds
    | .ok e =>
      match ds.define ⟨name, parameters, e⟩ with
      | .error _ => ds
      | .ok ds' => ds'
  | _ => ds

/-- The answer to a step. -/
def answer (s : Setting) (ds : Definitions) : Step → StepAnswer
  | .define name parameters body =>
    match s.read parameters body with
    | .error e => .failed e
    | .ok e =>
      match ds.define ⟨name, parameters, e⟩ with
      | .error d => .failed (.defect d)
      | .ok ds' => .size ds'.size
  | .encode c =>
    match s.read [] c with
    | .error e => .failed e
    | .ok e =>
      match e.encode ds with
      | .error d => .failed (.defect d)
      | .ok t => .term t
  | .check c =>
    match s.read [] c with
    | .error e => .failed e
    | .ok e =>
      match ds.check s.options e with
      | .error e => .failed e
      | .ok v => .verdict v
  | .lookup name =>
    match ds.lookup? name with
    | some d => .definition d
    | none => .failed (.defect (.unregistered name))
  | .contains name => .contains (ds.contains name)
  | .size => .size ds.size
  | .sort type =>
    match type.encodeSort with
    | .ok t => .sort t
    | .error d => .failed (.defect d)

end Step

/-- The answers to the steps of a session that begins with given definitions. -/
def Setting.answersFrom (s : Setting) (ds : Definitions) : List Step → List StepAnswer
  | [] => []
  | step :: steps => step.answer s ds :: s.answersFrom (step.after s ds) steps

/-- The answers to the steps of a session. -/
def Setting.answers (s : Setting) (steps : List Step) : List StepAnswer :=
  s.answersFrom .empty steps

end Discharge
