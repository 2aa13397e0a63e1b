import Nami.Nsurl.Verify.JoinExact
import Nami.Time.Verify.RoundTrip
import Nami.Hashtable.Verify.Loaders
import Nami.Hashmap.Verify.Refines
import Nami.Urldb.Verify.CookieList
import Nami.Urldb.Verify.Auth
import Nami.BackingStore.Verify.Blocks
import Nami.BackingStore.Verify.History
import Nami.Llcache.Verify.Attempts
import Nami.Fetch.Verify.Queue
import Nami.Amihttp.Verify.Truthful
import Nami.Amihttp.Verify.Abort
import Nami.Amihttp.Verify.Handoff
import Nami.Hlcache.Verify.Ownership
import Nami.Script.Verify.Listeners
import Nami.Script.Verify.Shutdown
import Nami.Script.Verify.Strings
import Nami.Script.Verify.Memo
import Nami.Script.Verify.Timers
import Nami.Desktop.Verify.Scrollbar
import Nami.Desktop.Verify.Undo
import Nami.Desktop.Verify.Knockout
import Nami.Idna.Verify.Punycode
import Nami.Desktop.Verify.Lines
import Nami.Desktop.Verify.HistoryRuns
import Nami.Nsoption.Verify.RoundTrip
import Nami.Desktop.Verify.SaveMarkup
import Nami.Content.Verify.Textsearch
import Nami.Fetch.Verify.Data
import Nami.Nsurl.Verify.JoinDots
import Nami.Nsurl.Verify.HostLabels
import Nami.Urldb.Verify.Deletion
import Nami.Desktop.Verify.HotlistLoad
import Nami.Urldb.Verify.HeaderLoop
import Nami.Urldb.Verify.CookieText
import Nami.Urldb.Verify.RootedPath
import Nami.Urldb.Verify.PartialSearch
import Nami.BackingStore.Verify.Outstanding
import Nami.Llcache.Verify.CacheSize
import Nami.Llcache.Verify.Freshness
import Nami.Llcache.Verify.FailedLoad
import Nami.Http.Verify.StrictTransportSecurity
import Nami.Http.Verify.Challenges
import Nami.Mimesniff.Verify.Feed
import Nami.Html.Verify.Construct
import Nami.Html.Verify.Neighbours
import Nami.Image.Verify.Cache
import Nami.Html.Verify.FlexPlacing
import Nami.Nsoption.Verify.Commandline
import Nami.Desktop.Verify.HistoryLayout
