import TermRewriting.Types.Atom
import TermRewriting.Types.Term
import TermRewriting.Types.Unify
import TermRewriting.Types.Rule
import TermRewriting.Types.Trs
import TermRewriting.Trs.Invariant
import TermRewriting.Trs.Errors
import TermRewriting.Trs.Push
import TermRewriting.Trs.RoundTrip
import TermRewriting.Rewrite.Strategy
import TermRewriting.Rewrite.StringRewrite
import TermRewriting.Rewrite.Engine
import TermRewriting.Rewrite.Eager
import TermRewriting.Rewrite.Semantics
import TermRewriting.Rewrite.Edits
import TermRewriting.Rewrite.Deterministic
import TermRewriting.Rewrite.WellFormed
import TermRewriting.Rewrite.Strings
import TermRewriting.Rewrite.StringSemantics
import TermRewriting.PString.Basic
import TermRewriting.PString.Query
import TermRewriting.PString.List
import TermRewriting.PString.Compute
