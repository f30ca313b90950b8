/-
**The baseline pages.**

Login, error and landing pages are there in every session, whoever the viewer is; pages for
dashboard widgets are added as they are switched on, in the order in which widgets are declared.
-/

import Wayfinder.Forest

namespace Wayfinder

/-- A dashboard widget with a page of its own. -/
inductive Widget where
  | reliefMap
  | barChart
  | boxCard
  | lineChart
  | panelGroup
  | transactionTable
  | todoList
  | videoPlayer
deriving DecidableEq, Repr

namespace Widget

/-- The widgets in declared order. -/
def all : List Widget :=
  [.reliefMap, .barChart, .boxCard, .lineChart, .panelGroup, .transactionTable, .todoList,
    .videoPlayer]

/-- The name of a widget in settings. -/
def label : Widget → String
  | .reliefMap => "relief-map"
  | .barChart => "bar-chart"
  | .boxCard => "box-card"
  | .lineChart => "line-chart"
  | .panelGroup => "panel-group"
  | .transactionTable => "transaction-table"
  | .todoList => "todo-list"
  | .videoPlayer => "video-player"

/-- The widget with a given name in settings. -/
def ofLabel? (text : String) : Option Widget :=
  all.find? fun widget => widget.label == text

/-- A widget is found under its name. -/
theorem ofLabel?_label (widget : Widget) : ofLabel? widget.label = some widget := by
  cases widget <;> decide

/-- The name of the page of a widget. -/
def pageName : Widget → String
  | .reliefMap => "ReliefMap"
  | .barChart => "BarChart"
  | .boxCard => "BarCard"
  | .lineChart => "LineChart"
  | .panelGroup => "PanelGroup"
  | .transactionTable => "TransactionTable"
  | .todoList => "TodoList"
  | .videoPlayer => "VideoPlayer"

/-- The path of the frame around the page of a widget. -/
def path : Widget → String
  | .reliefMap => "/relief-map"
  | widget => "/" ++ widget.pageName

/-- The title of the page of a widget. -/
def title : Widget → String
  | .reliefMap => "Relief Map"
  | widget => widget.pageName

/-- The icon of the page of a widget. -/
def icon : Widget → String
  | .reliefMap => "map"
  | widget => widget.pageName

/-- The page of a widget in its frame. -/
def node (widget : Widget) : Node where
  page := .layout widget.path
  children := [{ page :=
    { Page.view "index" ("dashboard/admin/components/" ++ widget.pageName) with
      name := some widget.pageName
      hints := { title := some widget.title, icon := some widget.icon } } }]

/-- The listed widgets, each once and in declared order. -/
def distinct (widgets : List Widget) : List Widget :=
  all.filter widgets.contains

end Widget

namespace Baseline

/-- A page that is reached by its path only. -/
def hiddenView (path token : String) : Node where
  page := { Page.view path token with hidden := true }

/-- A page in a frame that forwards to it. -/
def landing (framePath target path name token icon : String) : Node where
  page := { Page.layout framePath with redirect := some (.to target) }
  children := [{ page :=
    { Page.view path token with
      name := some name
      hints := { title := some name, icon := some icon } } }]

/-- One of the listed error pages. -/
def errorPage (code : String) : Node where
  page :=
    { Page.view code ("error-page/" ++ code) with
      name := some ("Page" ++ code)
      hints := { title := some code, noCache := true } }

/-- The list of error pages. -/
def errorPages : Node where
  page :=
    { Page.layout "/error" with
      name := some "ErrorPages"
      redirect := some .never
      hints := { title := some "Error Pages", icon := some "404" } }
  children := [errorPage "401", errorPage "404"]

/-- The root that sends everything else to the page for what is not found. -/
def fallback : Node where
  page := { path := Path.wildcard, redirect := some (.to "/404"), hidden := true }

/-- The baseline roots with the pages of the listed widgets. -/
def roots (widgets : List Widget) : List Node :=
  [ hiddenView "/login" "login/index",
    hiddenView "/404" "error-page/404",
    hiddenView "/401" "error-page/401",
    landing "/" "/dashboard" "dashboard" "Dashboard" "dashboard/index" "dashboard",
    landing "/History" "/History/history" "history" "History" "history/index" "history" ]
  ++ (Widget.distinct widgets).map Widget.node
  ++ [errorPages, fallback]

/-- The baseline forest with the pages of the listed widgets. -/
def forest (widgets : List Widget) : Except Defect Forest :=
  Forest.ofRoots (roots widgets)

end Baseline

end Wayfinder
