import StyleAudit.Report.Human
import StyleAudit.Report.Machine

/-!
# Showing a report

`Report.render` is the one place where a format is chosen.
-/

namespace StyleAudit.Report

/-- The report in the given format. -/
def render (v : View) (r : Report) : Format → String
  | .human => human v r
  | .json => (toJson v r).pretty
  | .workflow => workflow v r

end StyleAudit.Report
