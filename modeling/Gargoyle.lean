import Gargoyle.Bandwidth.RegistryRun
import Gargoyle.Bandwidth.DumpRestore
import Gargoyle.Bwctl.Lock
import Gargoyle.Bandwidth.PreviousReset
import Gargoyle.Bwctl.NodeStarts
import Gargoyle.Bwctl.HistoryFile
import Gargoyle.Bandwidth.BackwardsShift
import Gargoyle.Bandwidth.TimezoneShift
import Gargoyle.Bwctl.SetRun
import Gargoyle.Bwctl.GetData
import Gargoyle.Webmon.ReloadRun
import Gargoyle.Gpkg.DependsOn
import Gargoyle.Firewall.Memory
import Gargoyle.Web.UrlLists
import Gargoyle.Web.ScriptRun
import Gargoyle.Web.PackageVarsRun
import Gargoyle.Ewget.ResponseReads
import Gargoyle.Ddns.UpToDate
import Gargoyle.Ddns.OwnAnswers
import Gargoyle.Ddns.Credentials
import Gargoyle.Session.Browsing
import Gargoyle.Qos.PingLimit
import Gargoyle.Web.SaveReload
import Gargoyle.Quotas.BaseIds
import Gargoyle.Quotas.FilterGroup
import Gargoyle.Bandwidth.ReplyBounds
import Gargoyle.Bandwidth.SetBounds
import Gargoyle.Weburl.UrlBuffers
import Gargoyle.Bwctl.UsageFile
import Gargoyle.TreeMap.Allocation
import Gargoyle.Bandwidth.Verdict
import Gargoyle.Gpkg.Alternatives
import Gargoyle.Gpkg.Satisfiable
import Gargoyle.Gpkg.AllDepends
import Gargoyle.Firewall.AddressLists
import Gargoyle.Gpkg.StatusReload
import Gargoyle.Quotas.RegularWeeks
import Gargoyle.Web.Ip6Overlap
import Gargoyle.Webmon.EditDistance
import Gargoyle.Ewget.UrlBuffers
import Gargoyle.Ewget.Base64
import Gargoyle.Ddns.ServiceFiles
